import Threadstat.State.Rows

/-!
# A machine on which nothing fails

`Env.steady` opens every event, answers every id, fills every group read and loses no write.  It
satisfies what the theorems ask of a kernel, and on it the daemon's files can be computed.
-/

namespace Threadstat

open WordBytes

def ENOSPC : IoError := .os 28

def Kernel.nextFd {T : Type} (k : Kernel T) : RawFd :=
  k.table.foldr (fun ev m => max (ev.fd + 1) m) 3

theorem Kernel.lt_nextFd {T : Type} {k : Kernel T} {ev : PerfEvent T} (h : ev ∈ k.table) :
    ev.fd < k.nextFd := by
  unfold nextFd
  generalize k.table = table at h
  induction table with
  | nil => simp at h
  | cons old table ih =>
      rcases List.mem_cons.1 h with rfl | h
      · simp only [List.foldr_cons]
        exact Int.lt_of_lt_of_le (Int.lt_succ _) (Int.le_max_left _ _)
      · simp only [List.foldr_cons]
        exact Int.lt_of_lt_of_le (ih h) (Int.le_max_right _ _)

theorem Kernel.nextFd_nonneg {T : Type} (k : Kernel T) : 0 ≤ k.nextFd := by
  unfold nextFd
  induction k.table with
  | nil => exact (by decide : (0 : Int) ≤ 3)
  | cons ev table ih => exact ih.trans (Int.le_max_right _ _)

def Kernel.zeroRecord (k : Kernel InternC) (leader : UInt64) : List UInt8 :=
  groupRecord .little 0 0 ((k.members leader).map fun ev => ⟨0, ev.id⟩)

/-- Nothing fails until the ids run out. -/
def Os.steady : Os InternC where
  perfEventOpen k _ :=
    if h : ∀ ev ∈ k.opened, ev.id ≠ UInt64.ofNat k.opened.length then
      .ok ⟨k.nextFd, UInt64.ofNat k.opened.length, k.nextFd_nonneg,
        fun _ hev heq => absurd (Kernel.lt_nextFd hev) (by rw [heq]; exact Int.lt_irrefl _), h⟩
    else .error ENOSPC
  ioctlId _ _ := none
  read k fd len :=
    match k.find fd with
    | none => .error .EBADF
    | some ev =>
      if h : (k.zeroRecord ev.leader).length ≤ len then .ok ⟨k.zeroRecord ev.leader, h⟩
      else .error ENOSPC
  write _ _ := none

def Env.steady : Env where
  os := .steady
  endian := .little
  now _ := some 0
  alloc _ _ := .zeroed
  iter _ entries := entries
  iter_perm _ _ := .refl _

theorem nul_notMem_cycles : nul ∉ "cycles".toList := by decide

def cyclesGroup : NonEmpty (PerfConfig InternC) :=
  .newSingle ⟨⟨136, 0, 0, 0, true⟩, ⟨"cycles".toList, nul_notMem_cycles⟩⟩

def pairGroup : NonEmpty (PerfConfig InternC) where
  toList :=
    [⟨⟨136, 0, 0, 0, true⟩, ⟨"cycles".toList, nul_notMem_cycles⟩⟩,
      ⟨⟨136, 0, 4, 0, true⟩, ⟨"branches".toList, by decide⟩⟩]
  ne := List.cons_ne_nil _ _

namespace World

theorem steady_groupReads : GroupReads Env.steady := by
  intro k fd len ev bs hfind hleader _ hread
  simp only [Env.steady, Os.steady, hfind] at hread
  split at hread
  · obtain rfl := Except.ok.inj hread
    exact ⟨0, 0, _, rfl, by simp [hleader]⟩
  · cases hread

theorem steady_readAnswer {w : World} (hw : w.kernel.Ok) {tid : Pid} {leader : UInt64}
    {group : PerfStatGroup InternC} (hb : Backs w.kernel tid leader group) :
    w.readAnswer Env.steady group = .ok (w.kernel.zeroRecord leader) := by
  obtain ⟨ev, rest, hmembers, htable, hid, hfd, -⟩ := hb.leader_event
  have hfind : w.kernel.find group.leaderFd = some ev := hfd ▸ hw.find_eq htable
  have hleader : ev.leader = leader :=
    (Kernel.mem_members.1 (by rw [hmembers]; exact List.mem_cons_self)).2
  have hlen : (w.kernel.zeroRecord leader).length ≤ necessaryBufferSize group.len := by
    rw [Kernel.zeroRecord, length_groupRecord, List.length_map, hb.length_members]
  simp only [readAnswer, Kernel.read, hfind, Env.steady, Os.steady, hleader, Option.map_some,
    dif_pos hlen]
  rfl

theorem writeAnswer_granted {env : Env} (hwrite : ∀ k row, env.os.write k row = none)
    (row : CsvRow) (w : World) : w.writeAnswer env row = .ok () := by
  simp [writeAnswer, Kernel.write, hwrite]

theorem writeRows_trace_granted {env : Env} (hwrite : ∀ k row, env.os.write k row = none)
    (rows : List CsvRow) (w : World) :
    (w.writeRows env rows).kernel.trace =
      w.kernel.trace ++ rows.map fun row => .write row (.ok ()) := by
  induction rows generalizing w with
  | nil => simp [writeRows]
  | cons row rows ih =>
      rw [writeRows, List.foldl_cons, ← writeRows, ih, writeRow_kernel, writeAnswer_granted hwrite]
      simp

theorem steady_flushGroup_reads {w : World} (hw : w.kernel.Ok) {tid : Pid} {leader : UInt64}
    {group : PerfStatGroup InternC} (hb : Backs w.kernel tid leader group) :
    ((w.flushGroup Env.steady group).kernel.trace.filterMap Syscall.readRow?).map (·.readId) =
      (w.kernel.trace.filterMap Syscall.readRow?).map (·.readId) ++ [w.state.readId] := by
  have hanswer := steady_readAnswer hw hb
  rcases w.flushGroup_cases Env.steady group with ⟨e, herr, -⟩ | ⟨bs, -, heq⟩
  · rw [hanswer] at herr
    cases herr
  · have hevents : ∀ rows : List EventRow, (rows.map fun row =>
        (Syscall.write (.event row) (.ok ()) : Syscall InternC)).filterMap Syscall.readRow? = [] := by
      intro rows
      rw [List.filterMap_eq_nil_iff]
      intro s hs
      obtain ⟨row, -, rfl⟩ := List.mem_map.1 hs
      rfl
    have hrow : ∀ row : ReadRow,
        (Syscall.write (.read row) (.ok ()) : Syscall InternC).readRow? = some row := fun _ => rfl
    rw [heq, writeRows_trace_granted fun _ _ => rfl, flushRows, List.map_cons, List.map_map, afterRead,
      Kernel.trace_note, List.filterMap_append, List.filterMap_append,
      List.filterMap_cons_some (hrow _)]
    simp only [Function.comp_def, hevents]
    simp [readCall, Syscall.readRow?, readRow]

theorem steady_flushAll_reads {w : World} (hw : w.Ok) {tid : Pid} {group : PerfStatGroup InternC}
    (hgroups : w.state.groups.entries = [⟨tid, [group]⟩])
    (hreadId : w.state.readId = 0)
    (hnone : w.kernel.trace.filterMap Syscall.readRow? = []) (n : Nat) :
    ((w.run Env.steady (List.replicate n .flushAll)).kernel.trace.filterMap
      Syscall.readRow?).map (·.readId) = (List.range n).map UInt64.ofNat := by
  suffices h : ∀ n, ∃ w', w.run Env.steady (List.replicate n .flushAll) = w' ∧ w'.Ok ∧
      w'.state.groups.entries = [⟨tid, [group]⟩] ∧ w'.state.readId = UInt64.ofNat n ∧
      (w'.kernel.trace.filterMap Syscall.readRow?).map (·.readId) =
        (List.range n).map UInt64.ofNat by
    obtain ⟨w', rfl, -, -, -, hids⟩ := h n
    exact hids
  intro n
  induction n with
  | zero => exact ⟨w, rfl, hw, hgroups, hreadId, by simp [hnone]⟩
  | succ n ih =>
      obtain ⟨w', hrun, hok, hentries, hid, hids⟩ := ih
      have hflush : w'.flushAll Env.steady = w'.flushGroup Env.steady group := by
        simp only [flushAll, Env.steady, hentries]
        rfl
      have hlookup : w'.state.groups.lookup tid = some [group] :=
        AList.mem_lookup_iff.2 (by simp [hentries])
      obtain ⟨leader, hb⟩ := (hok.held tid _ hlookup).backs (List.mem_singleton_self group)
      have hsame := flushAll_same Env.steady w'
      refine ⟨w'.flushAll Env.steady, ?_, hsame.ok hok, hsame.groups ▸ hentries, ?_, ?_⟩
      · rw [List.replicate_succ', run_append, hrun]
        rfl
      · rw [hflush, flushGroup_readId, hid, UInt64.ofNat_add]
        rfl
      · rw [hflush, steady_flushGroup_reads hok.kernel hb, hids, hid, List.range_succ,
          List.map_append]
        rfl

end World

end Threadstat
