import Mathlib.Data.List.Forall2
import Mathlib.Data.List.Infix

/-!
# Buffered writing

A buffer in front of a sink that takes as much of what it is offered as it likes, or fails.  What
matters to a user is the text of the writer: what the sink has taken and then what the buffer
holds.  Every write adds a prefix of its data to the text, all of it just when the write succeeds,
and nothing the sink has taken is ever taken back.
-/

namespace BufWriter

variable {α ε : Type}

/-- What decides the answers of the sink, call by call: how much it takes of the data, unless it
fails.  A call that is interrupted is made again, and is not counted. -/
structure Sink (α ε : Type) where
  take : Nat → (data : List α) → Except ε { n : Nat // n ≤ data.length }

def Sink.Willing (sink : Sink α ε) : Prop :=
  ∀ calls data, data ≠ [] → ∃ n, sink.take calls data = .ok n ∧ 0 < n.1

structure Out (α : Type) where
  taken : List α
  calls : Nat

structure Writer (α : Type) where
  out : Out α
  buf : List α

structure Config (ε : Type) where
  capacity : Nat
  /-- The error when the sink takes nothing of the buffer, -/
  flushZero : ε
  /-- and when it takes nothing of what goes past the buffer. -/
  writeZero : ε

/-- Offers the data until all of it is taken; also returns what is left. -/
def drain (sink : Sink α ε) (zero : ε) (data : List α) (out : Out α) :
    Except ε Unit × List α × Out α :=
  if data = [] then (.ok (), [], out)
  else
    match sink.take out.calls data with
    | .error e => (.error e, data, { out with calls := out.calls + 1 })
    | .ok ⟨n, _⟩ =>
      if n = 0 then (.error zero, data, { out with calls := out.calls + 1 })
      else drain sink zero (data.drop n) ⟨out.taken ++ data.take n, out.calls + 1⟩
termination_by data.length
decreasing_by
  rw [List.length_drop]
  exact Nat.sub_lt (List.length_pos_iff.2 ‹¬data = []›) (Nat.pos_of_ne_zero ‹_›)

namespace Writer

variable (cfg : Config ε) (sink : Sink α ε)

def new : Writer α := ⟨⟨[], 0⟩, []⟩

def text (w : Writer α) : List α := w.out.taken ++ w.buf

def flushBuf (w : Writer α) : Except ε Unit × Writer α :=
  let (answer, buf, out) := drain sink cfg.flushZero w.buf w.out
  (answer, ⟨out, buf⟩)

/-- Writes the data once the buffer has room for it, or past the buffer if it never will. -/
def place (data : List α) (w : Writer α) : Except ε Unit × Writer α :=
  if cfg.capacity ≤ data.length then
    let (answer, _, out) := drain sink cfg.writeZero data w.out
    (answer, { w with out })
  else (.ok (), { w with buf := w.buf ++ data })

def writeAllCold (data : List α) (w : Writer α) : Except ε Unit × Writer α :=
  if cfg.capacity - w.buf.length < data.length then
    match w.flushBuf cfg sink with
    | (.error e, w) => (.error e, w)
    | (.ok (), w) => w.place cfg sink data
  else w.place cfg sink data

def writeAll (data : List α) (w : Writer α) : Except ε Unit × Writer α :=
  if data.length < cfg.capacity - w.buf.length then (.ok (), { w with buf := w.buf ++ data })
  else w.writeAllCold cfg sink data

def writeFmt : List (List α) → Writer α → Except ε Unit × Writer α
  | [], w => (.ok (), w)
  | piece :: pieces, w =>
    match w.writeAll cfg sink piece with
    | (.error e, w) => (.error e, w)
    | (.ok (), w) => writeFmt pieces w

end Writer

/-! ## The sink -/

theorem drain_cases (sink : Sink α ε) (zero : ε) (data : List α) (out : Out α) :
    (∃ out', drain sink zero data out = (.ok (), [], out') ∧
      out'.taken = out.taken ++ data) ∨
    ∃ e part rest out', drain sink zero data out = (.error e, rest, out') ∧
      data = part ++ rest ∧ rest ≠ [] ∧ out'.taken = out.taken ++ part := by
  fun_induction drain sink zero data out with
  | case1 out => exact .inl ⟨out, rfl, (List.append_nil _).symm⟩
  | case2 data out hne e => exact .inr ⟨e, [], data, _, rfl, rfl, hne, (List.append_nil _).symm⟩
  | case3 data out hne => exact .inr ⟨zero, [], data, _, rfl, rfl, hne, (List.append_nil _).symm⟩
  | case4 data out hne n _ _ _ ih =>
      rcases ih with ⟨out', heq, htaken⟩ | ⟨e, part, rest, out', heq, hdata, hrest, htaken⟩
      · refine .inl ⟨out', heq, ?_⟩
        rw [htaken, List.append_assoc, List.take_append_drop]
      · refine .inr ⟨e, data.take n ++ part, rest, out', heq, ?_, hrest, ?_⟩
        · rw [List.append_assoc, ← hdata, List.take_append_drop]
        · rw [htaken, List.append_assoc]

theorem Sink.Willing.drain_ok {sink : Sink α ε} (h : sink.Willing) (zero : ε) (data : List α)
    (out : Out α) : (drain sink zero data out).1 = .ok () := by
  fun_induction drain sink zero data out with
  | case1 => rfl
  | case2 data out hne e herror =>
      obtain ⟨n, hok, -⟩ := h out.calls data hne
      rw [herror] at hok
      cases hok
  | case3 data out hne hle hzero =>
      obtain ⟨n', hok, hpos⟩ := h out.calls data hne
      rw [hzero] at hok
      obtain rfl := Except.ok.inj hok
      exact absurd hpos (by simp)
  | case4 _ _ _ _ _ _ _ ih => exact ih

/-! ## The writer -/

/-- One write: of the data only `part` came to be in the text. -/
structure Wrote (capacity : Nat) (data part : List α) (answer : Except ε Unit)
    (w w' : Writer α) : Prop where
  text : w'.text = w.text ++ part
  isPrefix : part <+: data
  whole : answer = .ok () ↔ part = data
  room : w'.buf.length ≤ capacity
  grows : w.out.taken <+: w'.out.taken

namespace Writer

variable (cfg : Config ε) (sink : Sink α ε) {w : Writer α}

/-- Flushing moves the text along, and leaves nothing in the buffer just when it succeeds. -/
theorem flushBuf_cases (w : Writer α) :
    ∃ answer w', w.flushBuf cfg sink = (answer, w') ∧ w'.text = w.text ∧
      (answer = .ok () ↔ w'.buf = []) ∧ w'.buf.length ≤ w.buf.length ∧
      w.out.taken <+: w'.out.taken := by
  unfold flushBuf
  rcases drain_cases sink cfg.flushZero w.buf w.out with
    ⟨out, heq, htaken⟩ | ⟨e, part, rest, out, heq, hdata, hrest, htaken⟩
  · rw [heq]
    refine ⟨_, _, rfl, ?_, by simp, by simp, ⟨_, htaken.symm⟩⟩
    simp [text, htaken]
  · rw [heq]
    refine ⟨_, _, rfl, ?_, by simp [hrest], ?_, ⟨_, htaken.symm⟩⟩
    · simp [text, htaken, hdata]
    · rw [hdata, List.length_append]
      exact Nat.le_add_left _ _

theorem buffered {data : List α} (h : w.buf.length + data.length ≤ cfg.capacity) :
    Wrote cfg.capacity data data (.ok () : Except ε Unit) w
      { w with buf := w.buf ++ data } where
  text := by simp [text]
  isPrefix := List.prefix_rfl
  whole := by simp
  room := by simpa using h
  grows := List.prefix_rfl

/-- Data goes past the buffer only when that is empty, so nothing is overtaken. -/
theorem place_written (data : List α)
    (h : w.buf.length + data.length ≤ cfg.capacity ∨ w.buf = []) :
    ∃ part, Wrote cfg.capacity data part (w.place cfg sink data).1 w
      (w.place cfg sink data).2 := by
  unfold place
  split
  · next hlarge =>
    have hempty : w.buf = [] := by
      rcases h with h | h
      · exact List.eq_nil_of_length_eq_zero (by omega)
      · exact h
    rcases drain_cases sink cfg.writeZero data w.out with
      ⟨out, heq, htaken⟩ | ⟨e, part, rest, out, heq, hdata, hrest, htaken⟩
    · rw [heq]
      refine ⟨data, ?_, List.prefix_rfl, by simp, by simp [hempty], ⟨_, htaken.symm⟩⟩
      simp [text, hempty, htaken]
    · rw [heq]
      refine ⟨part, ?_, ⟨rest, hdata.symm⟩, ?_, by simp [hempty], ⟨_, htaken.symm⟩⟩
      · simp [text, hempty, htaken]
      · rw [hdata]
        simpa using hrest
  · next hsmall =>
    refine ⟨data, w.buffered cfg ?_⟩
    rcases h with h | h
    · exact h
    · rw [h, List.length_nil]
      omega

theorem writeAll_written (data : List α) (hroom : w.buf.length ≤ cfg.capacity) :
    ∃ part, Wrote cfg.capacity data part (w.writeAll cfg sink data).1 w
      (w.writeAll cfg sink data).2 := by
  unfold writeAll
  split
  · next hfits => exact ⟨data, w.buffered cfg (by omega)⟩
  · unfold writeAllCold
    split
    · next hlarge =>
      have hne : data ≠ [] := by
        rintro rfl
        exact absurd hlarge (by simp)
      obtain ⟨answer, w', heq, htext, hanswer, hbuf, hgrows⟩ := w.flushBuf_cases cfg sink
      rw [heq]
      cases answer with
      | error e =>
          refine ⟨[], ?_, List.nil_prefix, ?_, hbuf.trans hroom, hgrows⟩
          · rw [htext, List.append_nil]
          · simpa using Ne.symm hne
      | ok u =>
          obtain ⟨part, hpart⟩ := w'.place_written cfg sink data (.inr (hanswer.1 rfl))
          exact ⟨part, by rw [hpart.text, htext], hpart.isPrefix, hpart.whole, hpart.room,
            hgrows.trans hpart.grows⟩
    · exact w.place_written cfg sink data (.inl (by omega))

/-- Writing in pieces is writing: the first piece that fails is the last one tried. -/
theorem writeFmt_written (pieces : List (List α)) (hroom : w.buf.length ≤ cfg.capacity) :
    ∃ part, Wrote cfg.capacity pieces.flatten part (w.writeFmt cfg sink pieces).1 w
      (w.writeFmt cfg sink pieces).2 := by
  induction pieces generalizing w with
  | nil => exact ⟨[], by simp [writeFmt], List.prefix_rfl, by simp [writeFmt], hroom,
      List.prefix_rfl⟩
  | cons piece pieces ih =>
      obtain ⟨part, hpart⟩ := w.writeAll_written cfg sink piece hroom
      unfold writeFmt
      generalize w.writeAll cfg sink piece = written at hpart
      obtain ⟨answer, w'⟩ := written
      cases answer with
      | error e =>
          have hshort : part ≠ piece := fun heq => by cases hpart.whole.2 heq
          have hpiece : piece <+: (piece :: pieces).flatten := ⟨pieces.flatten, rfl⟩
          refine ⟨part, hpart.text, hpart.isPrefix.trans hpiece, ?_, hpart.room, hpart.grows⟩
          constructor
          · rintro ⟨⟩
          · intro heq
            exact absurd (hpart.isPrefix.eq_of_length_le (heq ▸ hpiece.length_le)) hshort
      | ok u =>
          obtain rfl := hpart.whole.1 rfl
          obtain ⟨later, hlater⟩ := ih hpart.room
          refine ⟨part ++ later, ?_, ?_, ?_, hlater.room, hpart.grows.trans hlater.grows⟩
          · rw [hlater.text, hpart.text, List.append_assoc]
          · exact (List.prefix_append_right_inj part).2 hlater.isPrefix
          · rw [hlater.whole, List.flatten_cons, List.append_cancel_left_eq]

end Writer

/-! ## A sink that always takes something -/

namespace Sink.Willing

variable {sink : Sink α ε}

theorem flushBuf_ok (h : sink.Willing) (cfg : Config ε) (w : Writer α) :
    (w.flushBuf cfg sink).1 = .ok () :=
  h.drain_ok cfg.flushZero w.buf w.out

theorem place_ok (h : sink.Willing) (cfg : Config ε) (data : List α) (w : Writer α) :
    (w.place cfg sink data).1 = .ok () := by
  unfold Writer.place
  split
  · exact h.drain_ok cfg.writeZero data w.out
  · rfl

theorem writeAll_ok (h : sink.Willing) (cfg : Config ε) (data : List α) (w : Writer α) :
    (w.writeAll cfg sink data).1 = .ok () := by
  unfold Writer.writeAll Writer.writeAllCold
  split
  · rfl
  · split
    · have hflush := h.flushBuf_ok cfg w
      generalize w.flushBuf cfg sink = flushed at hflush
      obtain ⟨answer, w'⟩ := flushed
      obtain rfl : answer = .ok () := hflush
      exact h.place_ok cfg data w'
    · exact h.place_ok cfg data w

theorem writeFmt_ok (h : sink.Willing) (cfg : Config ε) (pieces : List (List α)) (w : Writer α) :
    (w.writeFmt cfg sink pieces).1 = .ok () := by
  induction pieces generalizing w with
  | nil => rfl
  | cons piece pieces ih =>
      have hpiece := h.writeAll_ok cfg piece w
      unfold Writer.writeFmt
      generalize w.writeAll cfg sink piece = written at hpiece
      obtain ⟨answer, w'⟩ := written
      obtain rfl : answer = .ok () := hpiece
      exact ih w'

end Sink.Willing

/-! ## Many writes -/

/-- The text is `start` and then, for each write tried, the data if the write succeeded and a
proper prefix of it if not. -/
def Writer.Holds (w : Writer α) (start : List α) (tried : List (List α × Except ε Unit)) : Prop :=
  ∃ parts, w.text = start ++ parts.flatten ∧
    List.Forall₂ (fun t part => part <+: t.1 ∧ (t.2 = .ok () ↔ part = t.1)) tried parts

namespace Writer.Holds

variable {start : List α} {tried : List (List α × Except ε Unit)} {w w' : Writer α}

theorem snoc (h : w.Holds start tried) {capacity : Nat} {data part : List α}
    {answer : Except ε Unit} (hw : Wrote capacity data part answer w w') :
    w'.Holds start (tried ++ [(data, answer)]) := by
  obtain ⟨parts, htext, hparts⟩ := h
  refine ⟨parts ++ [part], ?_, ?_⟩
  · rw [hw.text, htext, List.append_assoc, List.flatten_append, List.flatten_singleton]
  · exact List.rel_append hparts (.cons ⟨hw.isPrefix, hw.whole⟩ .nil)

theorem text_eq (h : w.Holds start tried) (hok : ∀ t ∈ tried, t.2 = .ok ()) :
    w.text = start ++ (tried.map Prod.fst).flatten := by
  obtain ⟨parts, htext, hparts⟩ := h
  suffices heq : parts = tried.map Prod.fst by rw [htext, heq]
  clear htext
  induction hparts with
  | nil => rfl
  | cons hpart _ ih =>
      rw [List.map_cons, hpart.2.1 (hok _ List.mem_cons_self),
        ih fun t ht => hok t (List.mem_cons_of_mem _ ht)]

end Writer.Holds

end BufWriter
