import Ioxd.Http.Routes

/-!
# The path of an endpoint, as it is written

`full_path` of `lib/http/router.c` in its buffer: the parts go in from the right,
each in front of the last, and the text is then moved to the start. No write is
below the start, and the text is the one that `fullPath` gives.
-/

namespace Ioxd.Http

open Flat
open Ioxd.Pipe (Byte)

variable {M H : Type}

/-- `prepend` at the offset `at'`; `none` is a write below the buffer. -/
def prependAt (part : List Byte) (s : Mem Byte × Nat) : Option (Mem Byte × Nat) :=
  let (buf, at') := s
  if part ≠ [] ∧ buf at' ≠ 0 ∧ part.getLast? ≠ some slash ∧ buf at' ≠ slash then
    if at' < 1 + part.length then none
    else
      some (((buf.write (at' - 1) [slash]).write (at' - 1 - part.length) part),
        at' - 1 - part.length)
  else if at' < part.length then none
  else some (buf.write (at' - part.length) part, at' - part.length)

def prependAll : List (List Byte) → Mem Byte × Nat → Option (Mem Byte × Nat)
  | [], s => some s
  | part :: parts, s => (prependAt part s).bind (prependAll parts)

/-- The endpoint's path and its prefixes, the innermost first: C strings. -/
def Endpoint.parts (ep : Endpoint M H) : List (List Byte) :=
  cstr ep.path :: ep.groups.map fun g => cstr g.path

/-- `full_path` in a buffer of its own, up to and with the NUL. -/
def fullPathAt (fresh : Mem Byte) (ep : Endpoint M H) : Option (List Byte) :=
  let len := (ep.parts.map List.length).sum
  let top := len + ep.parts.length
  (prependAll ep.parts (fresh.write top [0], top)).map fun (buf, at') =>
    buf.read at' (top + 1 - at')

-- ---------------------------------------------------------------------------
-- The buffer
-- ---------------------------------------------------------------------------

/-- The text in front of the NUL at `top`. -/
structure Holding (top : Nat) (text : List Byte) (s : Mem Byte × Nat) : Prop where
  ends : s.2 + text.length = top
  bytes : s.1.read s.2 text.length = text
  nul : s.1 top = 0
  plain : 0 ∉ text

variable {top : Nat} {text part : List Byte} {s s' : Mem Byte × Nat}

theorem Holding.head (h : Holding top text s) : s.1 s.2 = text.head?.getD 0 := by
  have ht := h.bytes
  cases htx : text with
  | nil =>
    have he := h.ends
    rw [htx, List.length_nil, Nat.add_zero] at he
    rw [he, h.nul]
    rfl
  | cons c t =>
    have hg := getElem?_read s.1 s.2 text.length 0
    rw [ht, htx] at hg
    simpa using hg.symm

theorem Holding.write (h : Holding top text s) (hp : 0 ∉ part) (hr : part.length ≤ s.2) :
    Holding top (part ++ text) (s.1.write (s.2 - part.length) part, s.2 - part.length) := by
  have he := h.ends
  have hsplit : s.2 = s.2 - part.length + part.length := by omega
  refine ⟨?_, ?_, ?_, ?_⟩
  · simp only [List.length_append]
    omega
  · dsimp only
    rw [List.length_append, read_split _ hsplit rfl, read_write_self,
      read_write_above _ _ (by omega), h.bytes]
  · dsimp only
    rw [write_apply_above _ _ (by omega), h.nul]
  · simp [hp, h.plain]

theorem prependAt_holding (h : Holding top text s) (hp : 0 ∉ part)
    (hr : part.length + 1 ≤ s.2) : ∃ s', prependAt part s = some s' ∧
    Holding top (prepend text part) s' ∧ s.2 ≤ s'.2 + part.length + 1 := by
  have hhead := h.head
  have hsep : (part ≠ [] ∧ s.1 s.2 ≠ 0 ∧ part.getLast? ≠ some slash ∧ s.1 s.2 ≠ slash) ↔
      (part ≠ [] ∧ text ≠ [] ∧ part.getLast? ≠ some slash ∧ text.head? ≠ some slash) := by
    rw [hhead]
    cases htx : text with
    | nil => simp
    | cons c t =>
      have hc : c ≠ 0 := fun e => h.plain (by simp [htx, e])
      simp [hc]
  obtain ⟨buf, at'⟩ := s
  unfold prependAt prepend
  dsimp only at hsep hr ⊢
  by_cases hc : part ≠ [] ∧ text ≠ [] ∧ part.getLast? ≠ some slash ∧ text.head? ≠ some slash
  · rw [if_pos (hsep.mpr hc), if_neg (by omega), if_pos hc]
    have h1 := @Holding.write _ _ [slash] _ h (by decide) (by simpa using by omega)
    have h2 := @Holding.write _ _ part _ h1 hp (by simpa using by omega)
    simp only [List.length_singleton, List.singleton_append] at h2
    exact ⟨_, rfl, h2, by simp only; omega⟩
  · rw [if_neg (fun hx => hc (hsep.mp hx)), if_neg (by omega), if_neg hc]
    exact ⟨_, rfl, h.write hp (by simpa using by omega), by simp only; omega⟩

/-- As many bytes as the parts have and one for each are enough. -/
theorem prependAll_holding {parts : List (List Byte)} (h : Holding top text s)
    (hp : ∀ part ∈ parts, 0 ∉ part) (hr : (parts.map List.length).sum + parts.length ≤ s.2) :
    ∃ s', prependAll parts s = some s' ∧ Holding top (parts.foldl prepend text) s' := by
  induction parts generalizing s text with
  | nil => exact ⟨s, rfl, h⟩
  | cons part parts ih =>
    simp only [List.map_cons, List.sum_cons, List.length_cons] at hr
    obtain ⟨s₁, h1, h2, h3⟩ := prependAt_holding h (hp part (List.mem_cons_self ..))
      (by omega)
    obtain ⟨s₂, h4, h5⟩ := ih h2 (fun q hq => hp q (List.mem_cons_of_mem _ hq)) (by omega)
    exact ⟨s₂, by rw [prependAll, h1]; exact h4, h5⟩

theorem cstr_plain (s : List Byte) : 0 ∉ cstr s := by
  intro h
  simpa using List.mem_takeWhile_imp h

theorem Endpoint.parts_plain (ep : Endpoint M H) : ∀ part ∈ ep.parts, 0 ∉ part := by
  intro part hm
  rcases List.mem_cons.mp hm with rfl | hm
  · exact cstr_plain _
  · obtain ⟨g, -, rfl⟩ := List.mem_map.mp hm
    exact cstr_plain _

/-- For any path and any chain of prefixes, every write is in the buffer, and
the text has the segments of the prefixes, the outermost first, and then those
of the path. -/
theorem fullPathAt_segments (fresh : Mem Byte) (ep : Endpoint M H) : ∃ full,
    fullPathAt fresh ep = some (full ++ [0]) ∧ 0 ∉ full ∧
      segments full = ep.parts.reverse.flatMap pieces := by
  have h0 : Holding ((ep.parts.map List.length).sum + ep.parts.length) []
      (fresh.write ((ep.parts.map List.length).sum + ep.parts.length) [0],
        (ep.parts.map List.length).sum + ep.parts.length) := by
    refine ⟨rfl, rfl, ?_, by simp⟩
    exact write_apply_inside (k := 0) fresh [0] (by simp)
  obtain ⟨⟨buf, at'⟩, hs, hh⟩ := prependAll_holding h0 ep.parts_plain (Nat.le_refl _)
  have he := hh.ends
  refine ⟨_, ?_, hh.plain, ?_⟩
  · unfold fullPathAt
    dsimp only at hs ⊢
    rw [hs]
    have htop : (ep.parts.map List.length).sum + ep.parts.length + 1 - at' =
        (ep.parts.foldl prepend []).length + 1 := by
      dsimp only at he
      omega
    simp only [Option.map_some, Option.some.injEq]
    rw [htop, read_add, hh.bytes]
    dsimp only at he
    rw [he]
    simpa [Mem.read] using hh.nul
  · rw [segments_eq, pieces_foldl_prepend, pieces_nil, List.append_nil]

end Ioxd.Http
