import Ioxd.Http.ReadLaws

/-!
# One way through a chunked body

What the decoder does from a place is settled by the bytes that are there: of
two runs from one place, one goes on where the other stopped. So there is one
longest text in front of the first violation, and a body that can be read to
its end is never stuck on the way.
-/

namespace Ioxd.Http

open Flat
open Ioxd.Pipe
open Numeral
open Chunked (Cursor Extension encodeTrailers)

variable {c c' c₁ c₂ : Cursor} {d d₁ d₂ : List Byte}

-- ---------------------------------------------------------------------------
-- Where a run leads
-- ---------------------------------------------------------------------------

theorem decodes_done (h : Decodes c d c') (hd : c.done = true) : d = [] ∧ c' = c := by
  cases h with
  | refl => exact ⟨rfl, rfl⟩
  | step hs => cases hs <;> cases hd

theorem sizeLine_of_hex {size ext : List Byte} {n : Nat} (h : Hex size n) (he : Extension ext)
    (hmax : n ≤ sizeMax) : sizeLine (size ++ ext) = some n :=
  sizeLine_eq_some.mpr ⟨size, ext, rfl, h, hmax, suffix_of_extension he⟩

theorem decode_into (h : Decode c d c') (h0 : c.left = 0)
    (hd : c'.done = false) : 0 < c'.left := by
  cases h with
  | size _ _ hn => exact hn
  | part _ hlt =>
    dsimp only at h0
    omega
  | whole hne => exact absurd (List.length_eq_zero_iff.mp h0) hne
  | last => cases hd

inductive Between (s : List Byte) : List Byte → Cursor → Prop
  | stay : Between s [] ⟨s, 0, false⟩
  | chunk {line rest d : List Byte} {n : Nat} {c : Cursor} : s = line ++ crlf ++ rest →
      ¬ crlf <:+: line → sizeLine line = some n → 0 < n → Decodes ⟨rest, n, false⟩ d c →
      Between s d c
  | last {line rest : List Byte} {lines : List (List Byte)} :
      s = line ++ crlf ++ (encodeTrailers lines ++ rest) → ¬ crlf <:+: line →
      sizeLine line = some 0 → Trailers lines → Between s [] ⟨rest, 0, true⟩

theorem decodes_between (h : Decodes c d c') (h0 : c.left = 0) (hd : c.done = false) :
    Between c.stream d c' := by
  cases h with
  | refl =>
    have hc : c = ⟨c.stream, 0, false⟩ := by rw [← h0, ← hd]
    rw [hc]
    exact .stay
  | step hs hss =>
    cases hs with
    | size hs he hn hmax =>
      exact .chunk rfl (sizeLine_unbroken hs he) (sizeLine_of_hex hs he hmax) hn hss
    | part _ hlt =>
      dsimp only at h0
      omega
    | whole hne => exact absurd (List.length_eq_zero_iff.mp h0) hne
    | last hs he hl =>
      obtain ⟨rfl, rfl⟩ := decodes_done hss rfl
      exact .last (by simp) (sizeLine_unbroken hs he) (sizeLine_of_hex hs he (Nat.zero_le _)) hl

inductive Inside (s : List Byte) (n : Nat) : List Byte → Cursor → Prop
  | part {d rest : List Byte} : s = d ++ rest → d.length < n →
      Inside s n d ⟨rest, n - d.length, false⟩
  | whole {data rest d : List Byte} {c : Cursor} : s = data ++ crlf ++ rest → data.length = n →
      Decodes ⟨rest, 0, false⟩ d c → Inside s n (data ++ d) c

theorem decodes_inside (h : Decodes c d c') (h0 : 0 < c.left) (hd : c.done = false) :
    Inside c.stream c.left d c' := by
  induction h with
  | refl c =>
    have hc : c = ⟨c.stream, c.left - ([] : List Byte).length, false⟩ := by rw [← hd]; rfl
    rw [hc]
    exact .part rfl h0
  | step hs hss ih =>
    cases hs with
    | size | last => exact absurd h0 (Nat.lt_irrefl 0)
    | whole => exact .whole rfl rfl hss
    | part hne hlt =>
      cases ih (by dsimp only; omega) rfl with
      | part hs hlt' =>
        dsimp only at hs hlt' ⊢
        rw [Nat.sub_sub, ← List.length_append]
        refine .part (by rw [hs, List.append_assoc]) ?_
        rw [List.length_append]
        omega
      | whole hs hlen hd =>
        dsimp only at hs hlen ⊢
        rw [← List.append_assoc]
        refine .whole (by rw [hs]; simp) ?_ hd
        rw [List.length_append]
        omega

-- ---------------------------------------------------------------------------
-- Two runs
-- ---------------------------------------------------------------------------

theorem trailers_inj {lines lines' : List (List Byte)} {s s' : List Byte} (h : Trailers lines)
    (h' : Trailers lines') (he : encodeTrailers lines ++ s = encodeTrailers lines' ++ s') :
    s = s' := by
  induction lines generalizing lines' with
  | nil =>
    obtain ⟨l, r, hl, hno, hcase⟩ := Ctx.findCrlf_trailers h' s'
    rw [← he, encodeTrailers_nil, List.append_nil] at hl
    obtain ⟨rfl, rfl⟩ := first_line (l := []) (by simp) hno hl
    rcases hcase with ⟨-, -, rfl⟩ | ⟨hne, -⟩
    · rfl
    · exact absurd rfl hne
  | cons t lines ih =>
    obtain ⟨h1, h2⟩ := h t (by simp)
    obtain ⟨l, r, hl, hno, hcase⟩ := Ctx.findCrlf_trailers h' s'
    rw [← he, encodeTrailers_cons, List.append_assoc] at hl
    obtain ⟨rfl, rfl⟩ := first_line h2 hno hl
    rcases hcase with ⟨rfl, -⟩ | ⟨-, ls, rfl, hr⟩
    · exact absurd rfl h1
    · exact ih (fun x hx => h x (List.mem_cons_of_mem _ hx))
        (fun x hx => h' x (List.mem_cons_of_mem _ hx)) hr

def Continues (d : List Byte) (c : Cursor) (d' : List Byte) (c' : Cursor) : Prop :=
  ∃ x, d' = d ++ x ∧ Decodes c x c'

theorem continues_parts {s d r d' r' : List Byte} {n : Nat} (h : s = d ++ r) (h' : s = d' ++ r')
    (hn : d'.length < n) (hle : d.length ≤ d'.length) :
    Continues d ⟨r, n - d.length, false⟩ d' ⟨r', n - d'.length, false⟩ := by
  obtain ⟨x, rfl⟩ : d <+: d' := List.prefix_of_prefix_length_le ⟨r, h.symm⟩ ⟨r', h'.symm⟩ hle
  refine ⟨x, rfl, ?_⟩
  obtain rfl : r = x ++ r' := List.append_cancel_left (by rw [← h, h', List.append_assoc])
  by_cases hx : x = []
  · subst hx
    rw [List.append_nil, List.nil_append]
    exact .refl _
  · rw [List.length_append] at hn ⊢
    rw [← Nat.sub_sub]
    exact .single (.part hx (by omega))

theorem continues_whole {s d r data rest x : List Byte} {n : Nat} (h : s = d ++ r)
    (hlt : d.length < n) (h' : s = data ++ crlf ++ rest) (hlen : data.length = n)
    (hd : Decodes ⟨rest, 0, false⟩ x c) :
    Continues d ⟨r, n - d.length, false⟩ (data ++ x) c := by
  obtain ⟨y, rfl⟩ : d <+: data := by
    refine List.prefix_of_prefix_length_le ⟨r, h.symm⟩ ⟨crlf ++ rest, ?_⟩ (by omega)
    rw [h', List.append_assoc]
  obtain rfl : r = y ++ crlf ++ rest :=
    List.append_cancel_left (by rw [← h, h']; simp)
  refine ⟨y ++ x, by rw [List.append_assoc], ?_⟩
  rw [List.length_append] at hlen
  have hy : y ≠ [] := List.length_pos_iff.mp (by omega)
  rw [show n - d.length = y.length from by omega]
  exact .step (.whole hy) hd

theorem decodes_linear (h₁ : Decodes c d₁ c₁) (h₂ : Decodes c d₂ c₂) :
    Continues d₁ c₁ d₂ c₂ ∨ Continues d₂ c₂ d₁ c₁ := by
  induction hk : c.stream.length using Nat.strong_induction_on generalizing c d₁ d₂ with
  | _ k ih =>
    subst hk
    by_cases hd : c.done = true
    · obtain ⟨rfl, rfl⟩ := decodes_done h₁ hd
      exact .inl ⟨d₂, rfl, h₂⟩
    replace hd : c.done = false := by simpa using hd
    by_cases h0 : c.left = 0
    · have hc : c = ⟨c.stream, 0, false⟩ := by rw [← h0, ← hd]
      cases decodes_between h₁ h0 hd with
      | stay => exact .inl ⟨d₂, rfl, hc ▸ h₂⟩
      | chunk hs hno hsize hn hr =>
        cases decodes_between h₂ h0 hd with
        | stay => exact .inr ⟨d₁, rfl, hc ▸ h₁⟩
        | chunk hs' hno' hsize' hn' hr' =>
          obtain ⟨rfl, rfl⟩ := first_line hno hno' (hs.symm.trans hs')
          obtain rfl := Option.some.inj (hsize.symm.trans hsize')
          refine ih _ ?_ hr hr' rfl
          rw [hs]
          simp only [List.length_append, List.length_cons]
          omega
        | last hs' hno' hsize' =>
          obtain ⟨rfl, -⟩ := first_line hno hno' (hs.symm.trans hs')
          have := Option.some.inj (hsize.symm.trans hsize')
          omega
      | last hs hno hsize ht =>
        cases decodes_between h₂ h0 hd with
        | stay => exact .inr ⟨[], rfl, hc ▸ h₁⟩
        | chunk hs' hno' hsize' hn' hr' =>
          obtain ⟨rfl, -⟩ := first_line hno hno' (hs.symm.trans hs')
          have := Option.some.inj (hsize.symm.trans hsize')
          omega
        | last hs' hno' hsize' ht' =>
          obtain ⟨-, hr⟩ := first_line hno hno' (hs.symm.trans hs')
          obtain rfl := trailers_inj ht ht' hr
          exact .inl ⟨[], rfl, .refl _⟩
    · have hpos : 0 < c.left := by omega
      cases decodes_inside h₁ hpos hd with
      | part hs hlt =>
        cases decodes_inside h₂ hpos hd with
        | part hs' hlt' =>
          rcases Nat.le_total d₁.length d₂.length with hle | hle
          · exact .inl (continues_parts hs hs' hlt' hle)
          · exact .inr (continues_parts hs' hs hlt hle)
        | whole hs' hlen hr => exact .inl (continues_whole hs hlt hs' hlen hr)
      | @whole data rest x _ hs hlen hr =>
        cases decodes_inside h₂ hpos hd with
        | part hs' hlt' => exact .inr (continues_whole hs' hlt' hs hlen hr)
        | whole hs' hlen' hr' =>
          have he := hs.symm.trans hs'
          rw [List.append_assoc, List.append_assoc] at he
          obtain ⟨rfl, hrest⟩ := List.append_inj he (hlen.trans hlen'.symm)
          obtain rfl := List.append_cancel_left hrest
          have hlt : rest.length < c.stream.length := by
            rw [hs]
            simp only [List.length_append, List.length_cons]
            omega
          rcases ih _ hlt hr hr' rfl with ⟨x, rfl, hx⟩ | ⟨x, rfl, hx⟩
          · exact .inl ⟨x, by rw [List.append_assoc], hx⟩
          · exact .inr ⟨x, by rw [List.append_assoc], hx⟩

end Ioxd.Http
