import Threadstat.Lib.Numbering
import Threadstat.State.RoundTrip
import Mathlib.Data.Int.Interval

/-!
# The order in which a hash map yields its entries

`flush_all` reads the groups in whatever order the map yields them and numbers the reads as it goes.
If the outcome of every read is fixed, the order decides the numbers and nothing else.
-/

namespace Threadstat

open CsvText WordBytes Numbering

/-! ## What is fixed -/

structure GroupReading where
  timeEnabled : UInt64
  timeRunning : UInt64
  entries : List PerfGroupReadEntry

def answerOf (e : Endian) : Except IoError GroupReading → Except IoError (List UInt8)
  | .error err => .error err
  | .ok r => .ok (groupRecord e r.timeEnabled r.timeRunning r.entries)

namespace World

def heldGroups (w : World) : TidGroups := w.state.groups.entries.flatMap (·.2)

/-- What the type `OwnedFd` promises of the descriptors in a state: each is an `i32`, and no two of
them are the same. -/
structure OwnedFds (w : World) : Prop where
  range : ∀ group ∈ w.heldGroups, -2 ^ 31 ≤ group.leaderFd ∧ group.leaderFd < 2 ^ 31
  distinct : (w.heldGroups.map (·.leaderFd)).Nodup

/-- As long as nothing is opened or closed, reading a group has the outcome fixed for it, and no
write fails. -/
structure Fixed (env : Env) (outcome : PerfStatGroup InternC → Except IoError GroupReading)
    (w : World) : Prop where
  reads : ∀ group ∈ w.heldGroups, ∀ w', SameGroups w w' →
    w'.readAnswer env group = answerOf env.endian (outcome group)
  complete : ∀ group ∈ w.heldGroups, ∀ r, outcome group = .ok r → r.entries.length = group.len
  writes : ∀ w', SameGroups w w' → ∀ row, w'.writeAnswer env row = .ok ()

end World

/-! ## The rows of a flush -/

structure FlushedRows where
  reads : List ReadRow
  events : List EventRow

def ReadRow.untimed (r : ReadRow) : ReadRow := { r with timestamp := 0 }

def readRowsOf (id : UInt64) : Except IoError GroupReading → List ReadRow
  | .error _ => []
  | .ok r => [⟨id, 0, r.timeRunning, r.timeEnabled⟩]

def eventRowsOf (id : UInt64) : Except IoError GroupReading → List EventRow
  | .error _ => []
  | .ok r => r.entries.map fun x => ⟨id, x.value, x.id⟩

theorem readRowsOf_readId {id : UInt64} {outcome : Except IoError GroupReading} {r : ReadRow}
    (h : r ∈ readRowsOf id outcome) : r.readId = id := by
  cases outcome with
  | error e => cases h
  | ok reading =>
      obtain rfl := List.mem_singleton.1 h
      rfl

theorem eventRowsOf_readId {id : UInt64} {outcome : Except IoError GroupReading} {r : EventRow}
    (h : r ∈ eventRowsOf id outcome) : r.readId = id := by
  cases outcome with
  | error e => cases h
  | ok reading =>
      obtain ⟨x, -, rfl⟩ := List.mem_map.1 h
      rfl

def ReadRow.renumber (id : UInt64) (r : ReadRow) : ReadRow := { r with readId := id }

def EventRow.renumber (id : UInt64) (r : EventRow) : EventRow := { r with readId := id }

theorem readRowsOf_renumber (id id' : UInt64) (outcome : Except IoError GroupReading) :
    (readRowsOf id outcome).map (ReadRow.renumber id') = readRowsOf id' outcome := by
  cases outcome <;> rfl

theorem eventRowsOf_renumber (id id' : UInt64) (outcome : Except IoError GroupReading) :
    (eventRowsOf id outcome).map (EventRow.renumber id') = eventRowsOf id' outcome := by
  cases outcome with
  | error e => rfl
  | ok r =>
      rw [eventRowsOf, eventRowsOf, List.map_map]
      rfl

namespace FlushedRows

variable (rows : FlushedRows)

def readsOf (id : UInt64) : List ReadRow := rows.reads.filter (·.readId = id)

def eventsOf (id : UInt64) : List EventRow := rows.events.filter (·.readId = id)

def ids : Set UInt64 :=
  { id | (∃ r ∈ rows.reads, r.readId = id) ∨ ∃ r ∈ rows.events, r.readId = id }

end FlushedRows

/-- The rows are the same, up to a bijection `σ` of the used `read_id`s and the time stamps. -/
structure SameUpTo (used : Set UInt64) (σ : UInt64 → UInt64) (rows rows' : FlushedRows) :
    Prop where
  bijective : Set.BijOn σ used used
  ids : rows.ids ⊆ used
  ids' : rows'.ids ⊆ used
  reads : ∀ id ∈ used,
    ((rows.readsOf id).map ReadRow.untimed).map (ReadRow.renumber (σ id)) =
      (rows'.readsOf (σ id)).map ReadRow.untimed
  events : ∀ id ∈ used,
    (rows.eventsOf id).map (EventRow.renumber (σ id)) = rows'.eventsOf (σ id)

namespace World

def Appends (w w' : World) (rows : FlushedRows) : Prop :=
  w'.state.csv =
    { event := w.state.csv.event ++ unlines (rows.events.map EventRow.line)
      read := w.state.csv.read ++ unlines (rows.reads.map ReadRow.line)
      desc := w.state.csv.desc }

theorem Appends.refl {w w' : World} (h : w'.state.csv = w.state.csv) :
    w.Appends w' ⟨[], []⟩ := by
  rw [Appends, h]
  simp [unlines]

theorem Appends.trans {w w' w'' : World} {rows rows' : FlushedRows} (h : w.Appends w' rows)
    (h' : w'.Appends w'' rows') :
    w.Appends w'' ⟨rows.reads ++ rows'.reads, rows.events ++ rows'.events⟩ := by
  rw [Appends] at h h' ⊢
  rw [h', h]
  simp [unlines]

section Fixed

variable {env : Env} {outcome : PerfStatGroup InternC → Except IoError GroupReading} {w : World}

theorem Fixed.writeRows_csv (h : w.Fixed env outcome) (rows : List CsvRow) {w' : World}
    (hsame : SameGroups w w') :
    (w'.writeRows env rows).state.csv = rows.foldl CsvWriter.append w'.state.csv := by
  induction rows generalizing w' with
  | nil => rfl
  | cons row rows ih =>
      have hnext := hsame.trans (writeRow_same env row w')
      have hrow : (w'.writeRow env row).state.csv = w'.state.csv.append row := by
        rw [writeRow_csv, h.writes w' hsame row]
      calc
        _ = rows.foldl CsvWriter.append (w'.writeRow env row).state.csv := ih hnext
        _ = _ := by rw [hrow, List.foldl_cons]

theorem Fixed.flushGroup (h : w.Fixed env outcome) {w' : World} (hsame : SameGroups w w')
    {group : PerfStatGroup InternC} (hgroup : group ∈ w.heldGroups) :
    ∃ reads, reads.map ReadRow.untimed = readRowsOf w'.state.readId (outcome group) ∧
      w'.Appends (w'.flushGroup env group)
        ⟨reads, eventRowsOf w'.state.readId (outcome group)⟩ := by
  have hanswer := h.reads group hgroup w' hsame
  cases houtcome : outcome group with
  | error e =>
      rw [houtcome] at hanswer
      refine ⟨[], rfl, Appends.refl ?_⟩
      rcases w'.flushGroup_cases env group with ⟨e', -, heq⟩ | ⟨bs, hok, -⟩
      · rw [heq]
        rfl
      · rw [hanswer] at hok
        cases hok
  | ok r =>
      rw [houtcome] at hanswer
      let row : ReadRow :=
        ⟨w'.state.readId, (env.now w'.kernel).getD 0, r.timeRunning, r.timeEnabled⟩
      refine ⟨[row], rfl, ?_⟩
      rw [flushGroup_groupRecord (h.complete group hgroup r houtcome) hanswer, Appends,
        h.writeRows_csv _ (hsame.trans (afterRead_same env group w')), List.foldl_cons,
        foldl_append_events]
      rfl

def nthId (w : World) (i : Nat) : UInt64 := w.state.readId + UInt64.ofNat i

theorem nthId_succ (w : World) (n : Nat) : w.nthId n + 1 = w.nthId (n + 1) := by
  rw [nthId, nthId, UInt64.ofNat_add, UInt64.add_assoc]
  rfl

/-- The rows are those of the groups, which were read in order and numbered from `n` on. -/
structure InOrder (w : World) (outcome : PerfStatGroup InternC → Except IoError GroupReading)
    (n : Nat) (groups : TidGroups) (rows : FlushedRows) : Prop where
  reads : rows.reads.map ReadRow.untimed =
    collect (fun group i => readRowsOf (w.nthId i) (outcome group)) n groups
  events : rows.events =
    collect (fun group i => eventRowsOf (w.nthId i) (outcome group)) n groups

theorem Fixed.flushGroups (h : w.Fixed env outcome) {groups : TidGroups}
    (hgroups : ∀ group ∈ groups, group ∈ w.heldGroups) {w' : World} (hsame : SameGroups w w')
    {n : Nat} (hid : w'.state.readId = w.nthId n) :
    ∃ rows, w.InOrder outcome n groups rows ∧ w'.Appends (w'.flushGroups env groups) rows ∧
      (w'.flushGroups env groups).state.readId = w.nthId (n + groups.length) := by
  induction groups generalizing w' n with
  | nil => exact ⟨⟨[], []⟩, ⟨rfl, rfl⟩, Appends.refl rfl, hid⟩
  | cons group groups ih =>
      obtain ⟨reads, hreads, happends⟩ := h.flushGroup hsame (hgroups group List.mem_cons_self)
      have hnext : (w'.flushGroup env group).state.readId = w.nthId (n + 1) := by
        rw [flushGroup_readId, hid, nthId_succ]
      obtain ⟨rows, hrows, happends', hid'⟩ :=
        ih (fun g hg => hgroups g (List.mem_cons_of_mem group hg))
          (hsame.trans (flushGroup_same env group w')) hnext
      rw [hid] at hreads happends
      refine ⟨_, ⟨?_, ?_⟩, happends.trans happends', ?_⟩
      · rw [List.map_append, hreads, hrows.reads, collect]
      · rw [hrows.events, collect]
      · have hlength : n + (group :: groups).length = n + 1 + groups.length := by
          rw [List.length_cons]
          omega
        rw [hlength]
        exact hid'

def readingOrder (env : Env) (w : World) : TidGroups :=
  (env.iter w.kernel w.state.groups.entries).flatMap (·.2)

theorem readingOrder_perm (env : Env) (w : World) : (w.readingOrder env).Perm w.heldGroups :=
  (env.iter_perm w.kernel w.state.groups.entries).flatMap_right _

theorem flushAll_eq (env : Env) (w : World) :
    w.flushAll env = w.flushGroups env (w.readingOrder env) := by
  rw [flushAll, readingOrder, World.flushGroups, List.foldl_flatMap]
  rfl

/-- A flush of all groups adds their rows in the order in which they are read. -/
theorem Fixed.flushAll (h : w.Fixed env outcome) :
    ∃ rows, w.InOrder outcome 0 (w.readingOrder env) rows ∧ w.Appends (w.flushAll env) rows ∧
      (w.flushAll env).state.readId = w.nthId w.heldGroups.length := by
  have hgroups : ∀ group ∈ w.readingOrder env, group ∈ w.heldGroups := fun group hgroup =>
    (w.readingOrder_perm env).mem_iff.1 hgroup
  have hid : w.state.readId = w.nthId 0 := (UInt64.add_zero _).symm
  obtain ⟨rows, hrows, happends, hreadId⟩ := h.flushGroups hgroups (.refl w) hid
  rw [← flushAll_eq] at happends hreadId
  rw [Nat.zero_add, (w.readingOrder_perm env).length_eq] at hreadId
  exact ⟨rows, hrows, happends, hreadId⟩

end Fixed

/-! ## Numbers -/

/-- Every group has a descriptor of its own, so there are fewer groups than `read_id`s. -/
theorem OwnedFds.length_le {w : World} (h : w.OwnedFds) : w.heldGroups.length ≤ 2 ^ 64 := by
  have hsubset : (w.heldGroups.map (·.leaderFd)).toFinset ⊆ Finset.Ico (-2 ^ 31) (2 ^ 31) := by
    intro fd hfd
    obtain ⟨group, hgroup, rfl⟩ := List.mem_map.1 (List.mem_toFinset.1 hfd)
    exact Finset.mem_Ico.2 (h.range group hgroup)
  have hcard := Finset.card_le_card hsubset
  rw [List.toFinset_card_of_nodup h.distinct, List.length_map, Int.card_Ico] at hcard
  omega

def usedIds (w : World) : Set UInt64 := w.nthId '' Set.Iio w.heldGroups.length

theorem nthId_injOn (w : World) : Set.InjOn w.nthId (Set.Iio (2 ^ 64)) := by
  intro i hi j hj heq
  have hsame : UInt64.ofNat i = UInt64.ofNat j := by
    simpa [nthId] using heq
  have hnat := congrArg UInt64.toNat hsame
  rwa [UInt64.toNat_ofNat_of_lt' hi, UInt64.toNat_ofNat_of_lt' hj] at hnat

section InOrder

variable {w : World} {outcome : PerfStatGroup InternC → Except IoError GroupReading}
  {groups : TidGroups} {rows : FlushedRows}

theorem InOrder.readIds (h : w.InOrder outcome 0 groups rows) {id : UInt64} (hid : id ∈ rows.ids) :
    id ∈ w.nthId '' Set.Iio groups.length := by
  rcases hid with ⟨r, hr, rfl⟩ | ⟨r, hr, rfl⟩
  · have huntimed : r.untimed ∈ rows.reads.map ReadRow.untimed := List.mem_map_of_mem hr
    rw [h.reads] at huntimed
    obtain ⟨i, group, hi, hrow⟩ := mem_collect huntimed
    rw [Nat.zero_add] at hrow
    exact ⟨i, (List.getElem?_eq_some_iff.1 hi).1, (readRowsOf_readId hrow).symm⟩
  · rw [h.events] at hr
    obtain ⟨i, group, hi, hrow⟩ := mem_collect hr
    rw [Nat.zero_add] at hrow
    exact ⟨i, (List.getElem?_eq_some_iff.1 hi).1, (eventRowsOf_readId hrow).symm⟩

theorem InOrder.rows_of (h : w.InOrder outcome 0 groups rows) (hlength : groups.length ≤ 2 ^ 64)
    {i : Nat} {group : PerfStatGroup InternC} (hi : groups[i]? = some group) :
    (rows.readsOf (w.nthId i)).map ReadRow.untimed = readRowsOf (w.nthId i) (outcome group) ∧
      rows.eventsOf (w.nthId i) = eventRowsOf (w.nthId i) (outcome group) := by
  have hnum : Set.InjOn w.nthId (Set.Ico 0 (0 + groups.length)) := by
    apply w.nthId_injOn.mono
    intro j hj
    have hlt := hj.2
    rw [Set.mem_Iio]
    omega
  have hreads : ∀ (group : PerfStatGroup InternC) (i : Nat),
      ∀ r ∈ readRowsOf (w.nthId i) (outcome group), ReadRow.readId r = w.nthId i :=
    fun _ _ _ hr => readRowsOf_readId hr
  have hevents : ∀ (group : PerfStatGroup InternC) (i : Nat),
      ∀ r ∈ eventRowsOf (w.nthId i) (outcome group), EventRow.readId r = w.nthId i :=
    fun _ _ _ hr => eventRowsOf_readId hr
  constructor
  · have hfilter := filter_collect hreads hnum hi
    rw [← h.reads, List.filter_map, Nat.zero_add] at hfilter
    exact hfilter
  · have hfilter := filter_collect hevents hnum hi
    rw [← h.events, Nat.zero_add] at hfilter
    exact hfilter

/-- Reading the same groups in another order renumbers their rows. -/
theorem InOrder.sameUpTo {groups' : TidGroups} {rows' : FlushedRows}
    (h : w.InOrder outcome 0 groups rows) (h' : w.InOrder outcome 0 groups' rows')
    (hperm : groups.Perm groups') (hlength : groups.length ≤ 2 ^ 64) :
    ∃ σ, SameUpTo (w.nthId '' Set.Iio groups.length) σ rows rows' := by
  obtain ⟨π, hπ⟩ := exists_places hperm
  have hbij := places_bijOn hπ
  have hlength' := hperm.length_eq
  rw [← hlength'] at hbij
  obtain ⟨σ, hσ, hnth⟩ := exists_renumbering
    (w.nthId_injOn.mono (Set.Iio_subset_Iio hlength)) hbij
  -- The group that the first run reads as number `i` is number `π i` of the second.
  have hplace : ∀ i, i < groups.length → ∃ group, groups[i]? = some group ∧
      groups'[π i]? = some group := by
    intro i hi
    have hgroup := List.getElem?_eq_getElem hi
    exact ⟨_, hgroup, (hπ i).trans hgroup⟩
  refine ⟨σ, hσ, ?_, ?_, ?_, ?_⟩
  · intro id hid
    exact h.readIds hid
  · intro id hid
    rw [hlength']
    exact h'.readIds hid
  · rintro id ⟨i, hi, rfl⟩
    obtain ⟨group, hgroup, hgroup'⟩ := hplace i hi
    rw [hnth i hi, (h.rows_of hlength hgroup).1, (h'.rows_of (hlength' ▸ hlength) hgroup').1,
      readRowsOf_renumber]
  · rintro id ⟨i, hi, rfl⟩
    obtain ⟨group, hgroup, hgroup'⟩ := hplace i hi
    rw [hnth i hi, (h.rows_of hlength hgroup).2, (h'.rows_of (hlength' ▸ hlength) hgroup').2,
      eventRowsOf_renumber]

end InOrder

/-- For every state, all orders in which the map yields its entries and every outcome of every read:
two flushes leave the same groups and the same `read_id`, and the rows they add are the same up to
one renumbering of the reads and the times at which these were made. -/
theorem flushAll_order {w : World} (hfds : w.OwnedFds) {env env' : Env}
    {outcome : PerfStatGroup InternC → Except IoError GroupReading} (h : w.Fixed env outcome)
    (h' : w.Fixed env' outcome) :
    (w.flushAll env).state.groups = (w.flushAll env').state.groups ∧
      (w.flushAll env).state.readId = (w.flushAll env').state.readId ∧
      ∃ rows rows' σ, w.Appends (w.flushAll env) rows ∧ w.Appends (w.flushAll env') rows' ∧
        SameUpTo w.usedIds σ rows rows' := by
  obtain ⟨rows, hrows, happends, hreadId⟩ := h.flushAll
  obtain ⟨rows', hrows', happends', hreadId'⟩ := h'.flushAll
  have hperm : (w.readingOrder env).Perm (w.readingOrder env') :=
    (w.readingOrder_perm env).trans (w.readingOrder_perm env').symm
  have hlength := (w.readingOrder_perm env).length_eq
  refine ⟨?_, hreadId.trans hreadId'.symm, ?_⟩
  · calc
      _ = w.state.groups := (flushAll_same env w).groups
      _ = _ := (flushAll_same env' w).groups.symm
  · obtain ⟨σ, hσ⟩ := hrows.sameUpTo hrows' hperm (hlength ▸ hfds.length_le)
    rw [hlength] at hσ
    exact ⟨rows, rows', σ, happends, happends', hσ⟩

def unreadable : Env :=
  { Env.steady with
    os := { Os.steady with
      read := fun k fd len => if fd = 4 then .error .EBADF else Os.steady.read k fd len } }

def unreadableReversed : Env :=
  { unreadable with
    now := fun _ => none
    iter := fun _ entries => entries.reverse
    iter_perm := fun _ entries => List.reverse_perm entries }

def twoThreads : World := (new [cyclesGroup]).run Env.steady [.openTid 1, .openTid 2]

def oneReads (group : PerfStatGroup InternC) : Except IoError GroupReading :=
  if group.leaderFd = 4 then .error .EBADF else .ok ⟨0, 0, [⟨0, 0⟩]⟩

theorem heldGroups_twoThreads :
    twoThreads.heldGroups = [⟨.newSingle ⟨4, ⟨"cycles".toList, by decide⟩⟩⟩,
      ⟨.newSingle ⟨3, ⟨"cycles".toList, by decide⟩⟩⟩] := by
  rfl

theorem fixed_twoThreads {env : Env} (hos : env.os = unreadable.os)
    (hendian : env.endian = .little) : twoThreads.Fixed env oneReads where
  reads := by
    intro group hgroup w' hsame
    have htable := hsame.table
    rw [readAnswer, hos, hendian]
    obtain ⟨state, table, trace⟩ := w'
    obtain rfl : table = twoThreads.kernel.table := htable
    rw [heldGroups_twoThreads] at hgroup
    rcases List.mem_pair.1 hgroup with rfl | rfl <;> rfl
  complete := by
    intro group hgroup r hr
    rw [heldGroups_twoThreads] at hgroup
    rcases List.mem_pair.1 hgroup with rfl | rfl
    · cases hr
    · obtain rfl := Except.ok.inj hr
      rfl
  writes := by
    intro w' hsame row
    rw [writeAnswer, hos]
    rfl

/-- The one read that succeeds is the second of the one run and the first of the other. -/
theorem flushAll_order_twoThreads :
    (twoThreads.flushAll unreadable).state.readId =
        (twoThreads.flushAll unreadableReversed).state.readId ∧
      ∃ rows rows' σ, twoThreads.Appends (twoThreads.flushAll unreadable) rows ∧
        twoThreads.Appends (twoThreads.flushAll unreadableReversed) rows' ∧
        SameUpTo twoThreads.usedIds σ rows rows' := by
  have hfds : twoThreads.OwnedFds := by
    constructor
    · intro group hgroup
      rw [heldGroups_twoThreads] at hgroup
      rcases List.mem_pair.1 hgroup with rfl | rfl <;> exact ⟨by decide, by decide⟩
    · rw [heldGroups_twoThreads]
      decide
  have h : twoThreads.Fixed unreadable oneReads := fixed_twoThreads rfl rfl
  have h' : twoThreads.Fixed unreadableReversed oneReads := fixed_twoThreads rfl rfl
  exact (flushAll_order hfds h h').2

end World

end Threadstat
