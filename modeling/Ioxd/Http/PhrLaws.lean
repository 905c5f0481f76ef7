import Ioxd.Http.Phr
import Ioxd.Http.TextLaws

/-!
# Both builds of the request parser read alike

A search by blocks stops at the first byte that the loop behind it has to look
at, so that every function is the loop over single bytes. What such a loop
takes, and that it never changes its mind, is then known.
-/

namespace Ioxd.Http

open Growing
open Ioxd.Pipe (Byte)

namespace Phr

variable {sse : Bool} {ranges : Ranges} {buf : List Byte} {n : Nat} {found : Bool}

theorem isCtl_eq (c : Byte) : isCtl c = ranges1.has c := by
  have := forall_byte (P := fun c => isCtl c = ranges1.has c) (by decide +kernel) c
  exact this

/-- What the search passes over is nothing that `parse_token` stops at. -/
theorem tokenRanges_pass {c nextChar : Byte} (hn : tokenRanges.has nextChar = true)
    (hc : tokenRanges.has c = false) : (c == nextChar) = false ∧ (!isTokenChar c) = false := by
  have := forall_byte (P := fun c => (tokenRanges.has c || isTokenChar c) = true) (by decide +kernel) c
  rw [hc, Bool.false_or] at this
  refine ⟨beq_false_of_ne ?_, by simp [this]⟩
  rintro rfl
  simp [hn] at hc

theorem ranges2_pass {c : Byte} (hc : ranges2.has c = false) : (c == 32) = false ∧
    (!isPrintableAscii c && (decide (c < 0o40) || c == 0o177)) = false := by
  have := forall_byte (P := fun c => (ranges2.has c ||
    ((c == 32) == false && (!isPrintableAscii c && (decide (c < 0o40) || c == 0o177)) == false)) =
      true) (by decide +kernel) c
  rw [hc, Bool.false_or, Bool.and_eq_true, beq_iff_eq, beq_iff_eq] at this
  exact this

-- ---------------------------------------------------------------------------
-- The searches
-- ---------------------------------------------------------------------------

/-- The search passed over bytes that are not sought, and if it says so it is
at one that is. -/
def Searched (sought : Byte → Bool) (buf : List Byte) (r : Nat × Bool) : Prop :=
  (∀ c ∈ buf.take r.1, sought c = false) ∧
    (r.2 = true → ∃ c t, buf.drop r.1 = c :: t ∧ sought c = true)

theorem searched_stay {sought : Byte → Bool} : Searched sought buf (0, false) :=
  ⟨by simp, by simp⟩

theorem Searched.behind {sought : Byte → Bool} {r : Nat × Bool}
    (hn : ∀ c ∈ buf.take n, sought c = false) (hr : Searched sought (buf.drop n) r) :
    Searched sought buf (n + r.1, r.2) := by
  refine ⟨fun c hc => ?_, fun h => ?_⟩
  · rw [List.take_add, List.mem_append] at hc
    exact hc.elim (hn c) (hr.1 c)
  · rw [← List.drop_drop]
    exact hr.2 h

theorem findIdx_at {sought : Byte → Bool} {k : Nat} (h : k ≤ buf.length)
    (hne : (buf.take k).findIdx sought ≠ k) :
    Searched sought buf ((buf.take k).findIdx sought, true) := by
  have hk : (buf.take k).length = k := by
    rw [List.length_take]
    omega
  have hlt : (buf.take k).findIdx sought < (buf.take k).length :=
    Nat.lt_of_le_of_ne List.findIdx_le_length (by rwa [hk])
  generalize hi : (buf.take k).findIdx sought = i at *
  refine ⟨fun c hc => ?_, fun _ => ?_⟩
  · obtain ⟨j, hj, rfl⟩ := List.mem_iff_getElem.mp hc
    rw [List.length_take] at hj
    have hno := @List.not_of_lt_findIdx _ sought (buf.take k) j (by omega)
    simpa using hno
  · have hs : sought (buf.take k)[i] = true := by
      subst hi
      exact List.findIdx_getElem
    rw [List.getElem_take] at hs
    exact ⟨_, _, List.drop_eq_getElem_cons (by omega), hs⟩

theorem findIdx_none {sought : Byte → Bool} {k : Nat} (h : k ≤ buf.length)
    (heq : (buf.take k).findIdx sought = k) : ∀ c ∈ buf.take k, sought c = false := by
  have hk : (buf.take k).length = k := by
    rw [List.length_take]
    omega
  exact List.findIdx_eq_length.mp (heq.trans hk.symm)

theorem findcharBlocks_searched (left : Nat) (h : 16 * left ≤ buf.length) :
    Searched ranges.has buf (findcharBlocks ranges left buf) := by
  induction left generalizing buf with
  | zero => exact searched_stay
  | succ left ih =>
    unfold findcharBlocks cmpestri
    dsimp only
    split
    · exact findIdx_at (by omega) ‹_›
    · rename_i heq
      exact .behind (findIdx_none (by omega) (not_not.mp heq))
        (ih (by rw [List.length_drop]; omega))

theorem findcharFast_searched : Searched ranges.has buf (findcharFast sse ranges buf) := by
  unfold findcharFast
  split
  · exact findcharBlocks_searched _ (Nat.mul_div_le ..)
  · exact searched_stay

theorem isCtl_false_of_printable {c : Byte} (h : (!isPrintableAscii c) = false) :
    isCtl c = false := by
  rw [isCtl, h, Bool.false_and]

theorem eights_searched (turns : Nat) : Searched isCtl buf (eights turns buf) := by
  induction turns generalizing buf with
  | zero => exact searched_stay
  | succ turns ih =>
    unfold eights
    split
    · exact searched_stay
    rename_i hlen
    dsimp only
    by_cases h8 : doits buf = 8
    · rw [if_pos h8]
      exact .behind (fun c hc => isCtl_false_of_printable (findIdx_none (by omega) h8 c hc)) ih
    rw [if_neg h8]
    obtain ⟨hbefore, hat⟩ := findIdx_at (by omega) h8
    obtain ⟨c, t, hdrop, -⟩ := hat rfl
    have hbefore : ∀ c ∈ buf.take (doits buf), isCtl c = false :=
      fun c hc => isCtl_false_of_printable (hbefore c hc)
    have hdrop : buf.drop (doits buf) = c :: t := hdrop
    have hhead : (buf.drop (doits buf)).head?.any isCtl = isCtl c := by rw [hdrop]; rfl
    rw [hhead]
    split
    · exact ⟨hbefore, fun _ => ⟨c, t, hdrop, ‹_›⟩⟩
    · refine .behind (n := doits buf + 1) (fun d hd => ?_) ih
      rw [List.take_add, hdrop] at hd
      rcases List.mem_append.mp hd with hd | hd
      · exact hbefore d hd
      · obtain rfl := List.mem_singleton.mp hd
        simpa using ‹¬ isCtl d = true›

-- ---------------------------------------------------------------------------
-- One byte after the other
-- ---------------------------------------------------------------------------

theorem slowFrom_eq {stop bad : Byte → Bool}
    (h : ∀ c ∈ buf.take n, stop c = false ∧ bad c = false) :
    slowFrom n found stop bad buf = spanTo stop bad buf := by
  unfold slowFrom
  rw [spanTo_skip n h]
  split
  · rename_i hempty
    rw [Bool.and_eq_true, List.isEmpty_iff] at hempty
    rw [hempty.2]
    rfl
  · rfl

theorem parseToken_eq {nextChar : Byte} (hn : tokenRanges.has nextChar = true) :
    parseToken sse nextChar = spanTo (· == nextChar) fun c => !isTokenChar c := by
  funext buf
  unfold parseToken
  exact slowFrom_eq fun c hc => tokenRanges_pass hn (findcharFast_searched.1 c hc)

/-- `ADVANCE_TOKEN` stops at a space, and takes no other control character. -/
theorem advanceToken_eq : advanceToken sse = spanTo (· == 32)
    fun c => !isPrintableAscii c && (c < 0o40 || c == 0o177) := by
  funext buf
  unfold advanceToken
  exact slowFrom_eq fun c hc => ranges2_pass (findcharFast_searched.1 c hc)

theorem getTokenToEol_eq : getTokenToEol sse = spanTo isCtl (fun _ => false) >>= foundCtl := by
  funext buf
  have hs : Searched isCtl buf
      (if sse then findcharFast sse ranges1 buf else eights buf.length buf) := by
    split
    · have h := @findcharFast_searched sse ranges1 buf
      rwa [← show isCtl = ranges1.has from funext isCtl_eq] at h
    · exact eights_searched _
  unfold getTokenToEol
  generalize (if sse then findcharFast sse ranges1 buf else eights buf.length buf) = r at hs
  obtain ⟨n, found⟩ := r
  obtain ⟨hbefore, hat⟩ := hs
  dsimp only at hbefore hat ⊢
  rw [bind_eq, spanTo_skip n fun c hc => ⟨hbefore c hc, rfl⟩]
  split
  · obtain ⟨c, t, hdrop, hc⟩ := hat ‹_›
    rw [hdrop, spanTo, if_pos hc]
    simp [Except.map, Except.bind]
  · cases spanTo isCtl (fun _ => false) (buf.drop n) <;> rfl

theorem parseHeader_build (num : Nat) : parseHeader true num = parseHeader false num := by
  unfold parseHeader
  simp only [getTokenToEol_eq, parseToken_eq (show tokenRanges.has 58 = true by decide)]

theorem parseHeaders_build (num room : Nat) :
    parseHeaders true num room = parseHeaders false num room := by
  induction room generalizing num with
  | zero => rfl
  | succ room ih =>
    unfold parseHeaders
    simp only [parseHeader_build, ih]

theorem parseRequest_build (max : Nat) : parseRequest true max = parseRequest false max := by
  unfold parseRequest
  simp only [advanceToken_eq, parseToken_eq (show tokenRanges.has 32 = true by decide),
    parseHeaders_build]

end Phr

open Phr in
/-- The block searches and the unrolled loop change nothing, of any input and
whatever of it has been seen. -/
theorem phrParseRequest_build : phrParseRequest true = phrParseRequest false := by
  funext buf lastLen
  unfold phrParseRequest
  rw [parseRequest_build]

end Ioxd.Http
