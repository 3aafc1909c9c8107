import Threadstat.Poll.Client
import Mathlib.Data.List.Perm.Basic

/-!
# Handlers that read

A handler that reads is called because its descriptor can be read.  If no handler takes what another
was called for, a batch is served by its handlers one after the other, up to the first that stops
the loop.
-/

namespace Threadstat

variable {H C : Type}

/-- A poller whose handlers read: `available` says that the descriptor of a handler can be read, and
`stops` which handlers stop the loop. -/
structure Readers (H C : Type) where
  env : PollEnv H C
  available : C → H → Bool
  stops : H → Bool
  answers : ∀ h ctx, available ctx h = true →
    (env.call h ctx).1 = .ok (if stops h then .Stop else .Continue)
  others : ∀ h other ctx, available ctx h = true → other ≠ h → available ctx other = true →
    available (env.call h ctx).2 other = true

namespace Readers

variable (r : Readers H C)

/-- The handlers of a batch one after the other, up to the first that stops. -/
def serve : List H → C → PollAction × C
  | [], ctx => (.Continue, ctx)
  | h :: batch, ctx =>
    if r.stops h then (.Stop, (r.env.call h ctx).2) else serve batch (r.env.call h ctx).2

/-- The handlers of a batch are different and have something to read. -/
structure Ready (batch : List H) (ctx : C) : Prop where
  nodup : batch.Nodup
  available : ∀ h ∈ batch, r.available ctx h = true

def readable (sources : List (RawFd × H)) (ctx : C) : List (RawFd × UInt32) :=
  (sources.filter fun source => r.available ctx source.2).map fun source => (source.1, EPOLLIN)

def waiting (sources : List (RawFd × H)) (ctx : C) : List H :=
  (sources.filter fun source => r.available ctx source.2).map Prod.snd

def Reports (w : PollWorld H C) (event : EpollEvent) (h : H) : Prop :=
  event.events = EPOLLIN ∧ w.sources.lookup event.u64 = some ⟨event.fd, h⟩

variable {r} {w : PollWorld H C} {batch : List H} {ctx : C} {sources : List (RawFd × H)}

/-- What one handler takes is not missing for the next. -/
theorem Ready.tail {h : H} (hready : r.Ready (h :: batch) ctx) :
    r.Ready batch (r.env.call h ctx).2 := by
  obtain ⟨hnotin, hnodup⟩ := List.nodup_cons.1 hready.nodup
  refine ⟨hnodup, fun other hin => ?_⟩
  refine r.others h other ctx (hready.available h List.mem_cons_self) ?_
    (hready.available other (List.mem_cons_of_mem h hin))
  rintro rfl
  exact hnotin hin

theorem handleEvent_eq {event : EpollEvent} {h : H} (hreports : Reports w event h)
    (havailable : r.available w.ctx h = true) :
    ∃ w', w.handleEvent r.env event =
        (if r.stops h then some (.done (.ok .Stop)) else none, w') ∧
      w'.sources = w.sources ∧ w'.interest = w.interest ∧ w'.ctx = (r.env.call h w.ctx).2 := by
  have hrelevant : event.relevant = true := by
    rw [EpollEvent.relevant, hreports.1]
    decide
  have hhangup : event.hangup = false := by
    rw [EpollEvent.hangup, hreports.1]
    decide
  have hcall : r.env.call h w.ctx =
      (.ok (if r.stops h then .Stop else .Continue), (r.env.call h w.ctx).2) :=
    Prod.ext (r.answers h w.ctx havailable) rfl
  generalize (r.env.call h w.ctx).2 = ctx at hcall
  unfold PollWorld.handleEvent
  simp only [hrelevant, hreports.2, hhangup, hcall]
  cases r.stops h <;> exact ⟨_, rfl, rfl, rfl, rfl⟩

theorem handleEvents_serve (hsome : w.sources.entries.isEmpty = false) {events : List EpollEvent}
    (hreports : List.Forall₂ (Reports w) events batch) (hready : r.Ready batch w.ctx) :
    ∃ w', w.handleEvents r.env events = (.done (.ok (r.serve batch w.ctx).1), w') ∧
      w'.sources = w.sources ∧ w'.interest = w.interest ∧ w'.ctx = (r.serve batch w.ctx).2 := by
  induction events generalizing w batch with
  | nil =>
      cases hreports
      rw [PollWorld.handleEvents, hsome]
      exact ⟨w, rfl, rfl, rfl, rfl⟩
  | cons event events ih =>
      cases hreports with
      | @cons _ h _ batch hevent hrest =>
          obtain ⟨w₁, hturn, hsources, hinterest, hctx⟩ :=
            handleEvent_eq hevent (hready.available h List.mem_cons_self)
          rw [PollWorld.handleEvents, hturn, serve, ← hctx]
          cases hstops : r.stops h with
          | true => exact ⟨w₁, rfl, hsources, hinterest, rfl⟩
          | false =>
              have hrest' : List.Forall₂ (Reports w₁) events batch :=
                hrest.imp fun event' h' hreports => ⟨hreports.1, hsources ▸ hreports.2⟩
              obtain ⟨w', hevents, hsources', hinterest', hctx'⟩ :=
                ih (w := w₁) (hsources ▸ hsome) hrest' (hctx ▸ hready.tail)
              exact ⟨w', hevents, hsources'.trans hsources, hinterest'.trans hinterest, hctx'⟩

theorem ready_of_perm (hnodup : (sources.map Prod.snd).Nodup)
    (h : batch.Perm (r.waiting sources ctx)) : r.Ready batch ctx := by
  have hsub : (r.waiting sources ctx).Sublist (sources.map Prod.snd) :=
    List.filter_sublist.map Prod.snd
  refine ⟨h.nodup_iff.2 (hnodup.sublist hsub), fun handler hin => ?_⟩
  obtain ⟨entry, hentry, rfl⟩ := List.mem_map.1 (h.mem_iff.1 hin)
  exact (List.mem_filter.1 hentry).2

theorem eventsOf_reports (h : w.Registered sources) {batch : Batch}
    (hready : batch.ready.Perm (r.readable sources w.ctx)) :
    ∃ served : List H, served.Perm (r.waiting sources w.ctx) ∧
      List.Forall₂ (Reports w) (PollWorld.eventsOf w.interest batch) served := by
  let rel : RawFd × UInt32 → H → Prop :=
    fun entry handler => entry.2 = EPOLLIN ∧ (entry.1, handler) ∈ sources
  have hall : List.Forall₂ rel (r.readable sources w.ctx) (r.waiting sources w.ctx) := by
    rw [readable, waiting, List.forall₂_map_left_iff, List.forall₂_map_right_iff,
      List.forall₂_same]
    exact fun source hin => ⟨rfl, (List.mem_filter.1 hin).1⟩
  have hevents : ∀ {ready : List (RawFd × UInt32)} {served : List H},
      List.Forall₂ rel ready served → List.Forall₂ (Reports w)
        (ready.filterMap fun entry =>
          (w.interest.lookup entry.1).map fun data => ⟨entry.2, data, entry.1⟩) served := by
    intro ready served hserved
    induction hserved with
    | nil => exact .nil
    | @cons entry handler ready served hentry _ ih =>
        obtain ⟨fd, flags⟩ := entry
        obtain ⟨hflags, hin⟩ := hentry
        obtain ⟨key, hkey⟩ := (h.lookup fd handler).1 hin
        have hinterest := (h.oneToOne key fd).1 ⟨handler, hkey⟩
        rw [List.filterMap_cons_some (b := ⟨flags, key, fd⟩) (by simp [hinterest])]
        exact .cons ⟨hflags, hkey⟩ ih
  obtain ⟨served, hserved, hperm⟩ := List.perm_comp_forall₂ hready hall
  exact ⟨served, hperm, hevents hserved⟩

/-- A `poll_once` that finds something to read serves it, in some order. -/
theorem pollOnce_serve (hnodup : (sources.map Prod.snd).Nodup) (hsources : sources ≠ [])
    (h : w.Registered sources) {interrupted : List IoError}
    (hinterrupted : ∀ e ∈ interrupted, e.isInterrupted = true) {batch : Batch}
    (hready : batch.ready.Perm (r.readable sources w.ctx)) :
    ∃ served : List H, served.Perm (r.waiting sources w.ctx) ∧ r.Ready served w.ctx ∧
      ∃ w', w.pollOnce r.env (interrupted.map .error ++ [.ok batch]) =
          (.done (.ok (r.serve served w.ctx).1), w') ∧
        w'.Registered sources ∧ w'.ctx = (r.serve served w.ctx).2 := by
  -- What the loop over the events starts from.
  let w₁ : PollWorld H C := PollWorld.afterWait interrupted (some (.ok batch)) w
  have hw : w₁.Registered sources := ⟨h.oneToOne, h.lookup⟩
  obtain ⟨served, hperm, hreports⟩ := eventsOf_reports hw hready
  have hserved : r.Ready served w.ctx := ready_of_perm hnodup hperm
  have hsome : w₁.sources.entries.isEmpty = false := by
    obtain ⟨⟨fd, handler⟩, hin⟩ := List.exists_mem_of_ne_nil sources hsources
    obtain ⟨key, hkey⟩ := (hw.lookup fd handler).1 hin
    have hentry := AList.mem_lookup_iff.1 hkey
    exact List.isEmpty_eq_false_iff.2 (List.ne_nil_of_mem hentry)
  obtain ⟨w', hevents, hsources', hinterest', hctx'⟩ := handleEvents_serve hsome hreports hserved
  refine ⟨served, hperm, hserved, w', ?_, ⟨?_, ?_⟩, hctx'⟩
  · rw [PollWorld.pollOnce, PollWorld.waitReady_interrupted hinterrupted batch []]
    exact hevents
  · rw [hsources', hinterest']
    exact hw.oneToOne
  · rw [hsources']
    exact hw.lookup

/-- The kernel can report all that is readable at once, if that is not more than a batch takes. -/
theorem readable_batch (h : w.Registered sources) (hnodup : (sources.map Prod.snd).Nodup)
    (hfew : sources.length ≤ COUNT) :
    ∃ batch : Batch, batch.ready = r.readable sources w.ctx := by
  refine ⟨⟨r.readable sources w.ctx, ?_, ?_⟩, rfl⟩
  · have hfds : (sources.map Prod.fst).Nodup := by
      refine List.Nodup.map_on ?_ (List.Nodup.of_map _ hnodup)
      rintro ⟨fd, handler⟩ hin ⟨fd', handler'⟩ hin' rfl
      obtain ⟨key, hkey⟩ := (h.lookup fd handler).1 hin
      obtain ⟨key', hkey'⟩ := (h.lookup fd handler').1 hin'
      have hsame := (h.oneToOne key fd).1 ⟨handler, hkey⟩
      rw [(h.oneToOne key' fd).1 ⟨handler', hkey'⟩] at hsame
      obtain rfl := Option.some.inj hsame
      rw [hkey] at hkey'
      exact Prod.ext rfl (congrArg Source.handler (Option.some.inj hkey'))
    have hsub : ((r.readable sources w.ctx).map Prod.fst).Sublist (sources.map Prod.fst) := by
      rw [readable, List.map_map]
      exact List.filter_sublist.map _
    exact hfds.sublist hsub
  · have hfilter := List.length_filter_le (fun source => r.available w.ctx source.2) sources
    rw [readable, List.length_map]
    omega

end Readers

end Threadstat
