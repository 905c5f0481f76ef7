import Ioxd.Json.WriterLaws

/-!
# Misuse of a JSON writer

Any calls in any order, into memory. A call that has no place in the document
fails the writer, and what a writer that has not failed leaves with no level
open is one value. The root is the exception: a second value there gets a comma.
-/

namespace Ioxd.Json

open Ioxd.Pipe (Byte)
open JsonText (Value Number)

/-- The document that all of the calls make, or `none` if one has no place. -/
def Doc.run (d : Doc) : List Writer.Call → Option Doc
  | [] => some d
  | c :: cs => (d.step c).bind (run · cs)

namespace Writer

variable {S : Type} {k : Sink S} {j : Writer S}

-- ---------------------------------------------------------------------------
-- A writer that has failed
-- ---------------------------------------------------------------------------

theorem valueLead_failed (h : j.failed = true) : j.valueLead = (none, j) := by
  unfold valueLead
  rw [if_pos h]

theorem call_failed (h : j.failed = true) (c : Call) : j.call k c = (false, j) := by
  have hj : ({ j with failed := true } : Writer S) = j := by rw [← h]
  cases c with
  | object => exact if_pos h
  | array => exact if_pos h
  | endLevel => exact if_pos h
  | key name => exact if_pos h
  | string s =>
    show string k j s = _
    rw [string, valueLead_failed h]
  | int v =>
    show putValue k j _ = _
    rw [putValue, valueLead_failed h]
  | uint v =>
    show putValue k j _ = _
    rw [putValue, valueLead_failed h]
  | bool v =>
    show putValue k j _ = _
    rw [putValue, valueLead_failed h]
  | null =>
    show putValue k j _ = _
    rw [putValue, valueLead_failed h]
  | number text =>
    cases text with
    | none =>
      show (false, ({ j with failed := true } : Writer S)) = _
      rw [hj]
    | some t =>
      show putValue k j _ = _
      rw [putValue, valueLead_failed h]
  | raw json =>
    show raw k j json = _
    unfold raw
    split
    · rw [hj]
    · rw [valueLead_failed h]

theorem run_failed (h : j.failed = true) (cs : List Call) : (j.run k cs).2 = j := by
  induction cs with
  | nil => rfl
  | cons c cs ih =>
    unfold run
    rw [call_failed h]
    exact ih

theorem run_append (cs cs' : List Call) :
    (j.run k (cs ++ cs')).2 = ((j.run k cs).2.run k cs').2 := by
  induction cs generalizing j with
  | nil => rfl
  | cons c cs ih => exact ih

-- ---------------------------------------------------------------------------
-- Runs into memory
-- ---------------------------------------------------------------------------

theorem memory_lawful : Sink.memory.Lawful (fun _ m W => m.bytes = W) False where
  sound := fun _ h => h.elim
  reserve := fun _ _ _ _ => .inr ⟨not_false, _, rfl⟩
  write := fun h _ _ => congrArg (· ++ _) h

/-- The root has its value, and the call would bring it another. -/
def SecondRoot (j : Writer S) (c : Call) : Prop :=
  j.failed = false ∧ j.depth = 0 ∧ j.hasValue.getLsbD 0 = true ∧ brings c = true

/-- No call brings the root a second value. -/
def OneRoot (k : Sink S) (j : Writer S) : List Call → Prop
  | [] => True
  | c :: cs => ¬ SecondRoot j c ∧ OneRoot k (j.call k c).2 cs

theorem Sim.second {d : Doc} (h : Sim j d) {c : Call} (hc : Second d c) : SecondRoot j c := by
  obtain ⟨root, ls⟩ := d
  obtain ⟨h1, h2, h3⟩ := hc
  obtain rfl : ls = [] := h1
  refine ⟨h.live, h.depth, ?_, h3⟩
  rw [h.masks.2]
  exact Option.isSome_iff_ne_none.mpr h2

/-- What a writer into memory is after some calls: it has failed, or the calls have
made a document and its text is what has been written. -/
theorem run_follows {j : Writer Memory} {d : Doc} (h : Sim j d) (hwf : d.Wf)
    (hm : j.sink.bytes = d.text) {cs : List Call} (hg : ∀ c ∈ cs, Doc.Given c ∧ Short c)
    (hone : OneRoot Sink.memory j cs) :
    (j.run Sink.memory cs).2.failed = true ∨
      ∃ d', d.run cs = some d' ∧ d'.Wf ∧ Sim (j.run Sink.memory cs).2 d' ∧
        (j.run Sink.memory cs).2.sink.bytes = d'.text := by
  induction cs generalizing j d with
  | nil => exact .inr ⟨d, rfl, hwf, h, hm⟩
  | cons c cs ih =>
    obtain ⟨hc, hcs⟩ := List.forall_mem_cons.mp hg
    obtain ⟨hno, hone⟩ := hone
    have hout := @call_outcome _ _ _ _ _ 0 [] memory_lawful d h hm c hc.2
      (fun hx => hno (h.second hx)) False.elim
    unfold run
    dsimp only
    generalize j.call Sink.memory c = r at hone hout
    cases hout with
    | done hstep hsim hb =>
      rcases ih hsim (Doc.wf_step hwf hc.1 hstep) hb hcs hone with hf | ⟨d', hd, hrest⟩
      · exact .inl hf
      · exact .inr ⟨d', by rw [Doc.run, hstep]; exact hd, hrest⟩
    | misplaced _ hf =>
      left
      show (run Sink.memory _ cs).2.failed = true
      rw [run_failed hf]
      exact hf
    | broken _ hf =>
      left
      show (run Sink.memory _ cs).2.failed = true
      rw [run_failed hf]
      exact hf

theorem start_wf : Doc.Wf .start := ⟨(by simp [Doc.start]), (by simp [Doc.start])⟩

/-- Any calls into memory, none of which brings the root a second value: what is
done is one value, a call with no place has failed the writer, and a writer that
has failed writes nothing more. -/
theorem misuse_caught (null : Bool) (cap : Nat) (cs : List Call)
    (hg : ∀ c ∈ cs, Doc.Given c ∧ Short c)
    (hone : OneRoot Sink.memory (init ⟨null, cap, []⟩) cs) :
    let j := ((init ⟨null, cap, []⟩).run Sink.memory cs).2
    (j.done = true → j.sink.bytes ≠ [] → Value j.sink.bytes) ∧
      (Doc.run .start cs = none → j.failed = true) ∧
      ∀ done rest, cs = done ++ rest →
        let i := ((init ⟨null, cap, []⟩).run Sink.memory done).2
        i.failed = true → j.failed = true ∧ j.sink.bytes = i.sink.bytes := by
  have hrun := run_follows (init_sim _) start_wf rfl hg hone
  dsimp only
  refine ⟨fun hdone hne => ?_, fun hnone => ?_, fun done rest he hf => ?_⟩
  · rw [done, Bool.and_eq_true, Bool.not_eq_true', beq_iff_eq] at hdone
    obtain hf | ⟨d, -, hwf, hsim, hb⟩ := hrun
    · rw [hf] at hdone
      cases hdone.1
    · have h0 : d.open' = [] := List.length_eq_zero_iff.mp (hsim.depth ▸ hdone.2)
      have htext : d.text = d.root.getD [] := by
        unfold Doc.text
        rw [h0]
      rw [htext] at hb
      cases hr : d.root with
      | none =>
        rw [hr] at hb
        exact absurd hb hne
      | some v =>
        rw [hr] at hb
        rw [hb]
        exact hwf.root v hr
  · obtain hf | ⟨d, hd, -⟩ := hrun
    · exact hf
    · rw [hnone] at hd
      cases hd
  · subst he
    rw [run_append, run_failed hf]
    exact ⟨hf, rfl⟩

/-- An array that is closed, and an end too many behind it. -/
theorem misuse_caught_array :
    let j := ((init ⟨false, 64, []⟩).run Sink.memory [.array, .int 1, .endLevel]).2
    j.done = true ∧ Value j.sink.bytes ∧
      ((init ⟨false, 64, []⟩).run Sink.memory
        [.array, .int 1, .endLevel, .endLevel]).2.failed = true := by
  have h := misuse_caught false 64 [.array, .int 1, .endLevel]
    (by simp [Doc.Given, Short])
    ⟨fun h => absurd h.2.2.1 (by decide), fun h => absurd h.2.1 (by decide),
      fun h => absurd h.2.1 (by decide), trivial⟩
  have h' := misuse_caught false 64 [.array, .int 1, .endLevel, .endLevel]
    (by simp [Doc.Given, Short])
    ⟨fun h => absurd h.2.2.1 (by decide), fun h => absurd h.2.1 (by decide),
      fun h => absurd h.2.1 (by decide), fun h => absurd h.2.2.2 (by decide), trivial⟩
  exact ⟨by decide, h.1 (by decide) (by decide), h'.2.1 (by decide)⟩

-- ---------------------------------------------------------------------------
-- Two values at the root
-- ---------------------------------------------------------------------------

theorem number_no_comma {s : List Byte} (h : Number s) : (44 : Byte) ∉ s := by
  have hdigits {t : List Byte} (ht : ∀ d ∈ t, JsonText.isDigit d = true) : (44 : Byte) ∉ t :=
    fun hx => absurd (ht 44 hx) (by decide)
  obtain ⟨hsign, hwhole, hfrac, hexp⟩ := h
  simp only [List.mem_append, not_or]
  refine ⟨⟨⟨?_, ?_⟩, ?_⟩, ?_⟩
  · rcases hsign with rfl | rfl <;> simp
  · cases hwhole with
    | zero => simp
    | more c h1 h2 ht =>
      rw [List.mem_cons, not_or]
      refine ⟨fun hc => ?_, hdigits ht⟩
      subst hc
      exact absurd h1 (by decide)
  · rcases hfrac with rfl | ⟨t, -, ht, rfl⟩
    · simp
    · simpa using hdigits ht
  · rcases hexp with rfl | ⟨e, sgn, t, he, hsgn, -, ht, rfl⟩
    · simp
    · simp only [List.cons_append, List.mem_cons, List.mem_append, not_or]
      refine ⟨?_, ?_, hdigits ht⟩
      · rcases he with rfl | rfl <;> decide
      · rcases hsgn with rfl | rfl | rfl <;> simp

theorem not_value_pair {s : List Byte} (h : Value s) : s ≠ [49, 44, 50] := by
  induction h with
  | null => decide
  | true => decide
  | false => decide
  | number hn =>
    rintro rfl
    exact number_no_comma hn (by decide)
  | string hq =>
    cases hq
    simp
  | array => simp
  | object => simp
  | emptyArray => simp
  | emptyObject => simp
  | @spaced s a b hs ha hb ih =>
    intro he
    -- neither end is a blank
    have ha0 : a = [] := by
      cases a with
      | nil => rfl
      | cons c a =>
        have hc := ha c (by simp)
        rw [List.cons_append, List.cons_append, List.cons.injEq] at he
        rw [he.1] at hc
        exact absurd hc (by decide)
    have hb0 : b = [] := by
      rcases List.eq_nil_or_concat b with rfl | ⟨t, c, rfl⟩
      · rfl
      · have hc := hb c (by simp)
        have he' := congrArg List.getLast? he
        simp only [List.concat_eq_append, ← List.append_assoc, List.getLast?_append,
          List.getLast?_singleton] at he'
        obtain rfl : c = 50 := by simpa using he'
        exact absurd hc (by decide)
    subst ha0 hb0
    exact ih (by simpa using he)

/-- The second of two numbers at the root has no place and is written all the
same, behind a comma. -/
theorem second_root_unnoticed :
    let j := ((init ⟨false, 64, []⟩).run Sink.memory [.int 1, .int 2]).2
    Doc.run .start [.int 1, .int 2] = none ∧ j.failed = false ∧ j.done = true ∧
      j.sink.bytes = [49, 44, 50] ∧ ¬ Value j.sink.bytes := by
  have hb : ((init ⟨false, 64, []⟩).run Sink.memory [.int 1, .int 2]).2.sink.bytes =
      [49, 44, 50] := by decide
  refine ⟨by decide, by decide, by decide, hb, fun h => ?_⟩
  exact not_value_pair h hb

end Writer

end Ioxd.Json
