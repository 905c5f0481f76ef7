import Ioxd.Http.Resumed

/-!
# A parsed head written again

What the parser finds in a head can be written as a head, one blank behind each
colon and a CRLF at each line's end, and is found again in it: a head passed on
says to the next parser what it said to this one.
-/

namespace Ioxd.Http

open Growing
open Ioxd.Pipe (Byte)
open Phr

/-- A header that a line can say: no blank at an end of its value, but for the
one that marks a folded line. -/
def Header.Ok (numHeaders : Nat) (header : Header) : Prop :=
  Text header.value ∧ header.value.rdropWhile isPad = header.value ∧
    match header.name with
    | some name => Token name ∧ ¬ StartsBlank header.value
    | none => numHeaders ≠ 0 ∧ (header.value = [] ∨ StartsBlank header.value)

def HeadersOk : Nat → List Header → Prop
  | _, [] => True
  | num, header :: headers => header.Ok num ∧ HeadersOk (num + 1) headers

structure ParsedHead.Ok (max : Nat) (found : ParsedHead) : Prop where
  method : Token found.method
  target : Target found.target
  minorVersion : found.minorVersion ≤ 9
  headers : HeadersOk 0 found.headers
  room : found.headers.length ≤ max

abbrev eol : List Byte := [13, 10]

def Header.line (header : Header) : List Byte :=
  match header.name with
  | some name => name ++ 58 :: ([32] ++ (header.value ++ eol))
  | none => (if header.value = [] then [32] else header.value) ++ eol

def ParsedHead.encode (found : ParsedHead) : List Byte :=
  [] ++ (found.method ++ ([32] ++ (found.target ++ ([32] ++ (str "HTTP/1." ++
    UInt8.ofNat (48 + found.minorVersion) ::
      (eol ++ (found.headers.flatMap Header.line ++ eol)))))))

variable {sse : Bool} {num room max : Nat} {w : List Byte} {header : Header} {found : ParsedHead}

-- ---------------------------------------------------------------------------
-- What is found is well formed
-- ---------------------------------------------------------------------------

theorem rdropWhile_text (h : Text w) : Text (w.rdropWhile isPad) :=
  fun c hc => h c ((List.rdropWhile_prefix isPad w).subset hc)

theorem startsBlank_of_rdropWhile (h : StartsBlank (w.rdropWhile isPad)) : StartsBlank w := by
  obtain ⟨c, t, hv, hc⟩ := h
  obtain ⟨r, hr⟩ := List.rdropWhile_prefix (l := w) isPad
  exact ⟨c, t ++ r, by rw [← hr, hv]; rfl, hc⟩

theorem Phr.HeaderLine.ok (h : HeaderLine num w header) : header.Ok num := by
  cases h with
  | field hname _ htext hstart =>
    exact ⟨rdropWhile_text htext, List.rdropWhile_idempotent .., hname,
      fun hs => hstart (startsBlank_of_rdropWhile hs)⟩
  | @folded text eol hnum hstart htext =>
    refine ⟨rdropWhile_text htext, List.rdropWhile_idempotent .., hnum, ?_⟩
    obtain ⟨c, t, rfl, hc⟩ := hstart
    obtain ⟨r, hr⟩ := List.rdropWhile_prefix (l := c :: t) isPad
    cases hv : (c :: t).rdropWhile isPad with
    | nil => exact .inl rfl
    | cons d v =>
      rw [hv] at hr
      obtain ⟨rfl, -⟩ := List.cons.inj hr
      exact .inr ⟨d, v, rfl, hc⟩

theorem Phr.HeaderLines.ok {headers : List Header} (h : HeaderLines num room w headers) :
    HeadersOk num headers ∧ headers.length ≤ room := by
  induction h with
  | nil => exact ⟨trivial, Nat.zero_le _⟩
  | cons hline _ ih => exact ⟨⟨hline.ok, ih.1⟩, Nat.succ_le_succ ih.2⟩

theorem Phr.RequestHead.ok (h : RequestHead max w found) : found.Ok max := by
  cases h with
  | @mk lead method sp target sp' eol rest digit headers hl hm hs ht hs' hdigit he hrest =>
    refine ⟨hm, ht, ?_, hrest.ok.1, hrest.ok.2⟩
    have : digit.toNat ≤ 57 := UInt8.le_iff_toNat_le.mp hdigit.2
    show digit.toNat - 48 ≤ 9
    omega

-- ---------------------------------------------------------------------------
-- What is well formed is found
-- ---------------------------------------------------------------------------

theorem Header.Ok.line (h : header.Ok num) : HeaderLine num header.line header := by
  obtain ⟨name, value⟩ := header
  obtain ⟨htext, htrim, hname⟩ := h
  dsimp only at htext htrim hname
  cases name with
  | some name =>
    have hline : HeaderLine num (name ++ 58 :: ([32] ++ (value ++ eol)))
        ⟨some name, value.rdropWhile isPad⟩ := .field hname.1
      (fun c hc => by rw [List.mem_singleton.mp hc]; decide) htext hname.2 .crlf
    rwa [htrim] at hline
  | none =>
    unfold Header.line
    dsimp only
    split
    · rename_i hv
      subst hv
      have hline : HeaderLine num ([32] ++ eol) ⟨none, [32].rdropWhile isPad⟩ := .folded hname.1
        ⟨32, [], rfl, by decide⟩ (fun c hc => by rw [List.mem_singleton.mp hc]; decide) .crlf
      rwa [show [32].rdropWhile isPad = [] from by decide] at hline
    · rename_i hv
      have hline := HeaderLine.folded hname.1 (hname.2.resolve_left hv) htext .crlf
      rwa [htrim] at hline

theorem HeadersOk.lines {headers : List Header} (h : HeadersOk num headers)
    (hroom : headers.length ≤ room) :
    HeaderLines num room (headers.flatMap Header.line ++ eol) headers := by
  induction headers generalizing num room with
  | nil => exact .nil .crlf
  | cons header headers ih =>
    cases room with
    | zero => simp at hroom
    | succ room =>
      rw [List.flatMap_cons, List.append_assoc]
      exact .cons h.1.line (ih h.2 (Nat.le_of_succ_le_succ hroom))

theorem ParsedHead.Ok.encode (h : found.Ok max) : RequestHead max found.encode found := by
  have hsp : Spaces [32] := ⟨by decide, fun c hc => List.mem_singleton.mp hc⟩
  have hminor := h.minorVersion
  have hdigit : (UInt8.ofNat (48 + found.minorVersion)).toNat = 48 + found.minorVersion := by
    rw [UInt8.toNat_ofNat_of_lt']
    show _ < 256
    omega
  have hrange : 48 ≤ UInt8.ofNat (48 + found.minorVersion) ∧
      UInt8.ofNat (48 + found.minorVersion) ≤ 57 :=
    ⟨UInt8.le_iff_toNat_le.mpr (by rw [hdigit]; show 48 ≤ _; omega),
      UInt8.le_iff_toNat_le.mpr (by rw [hdigit]; show _ ≤ 57; omega)⟩
  have hmk := RequestHead.mk (.inl rfl) h.method hsp h.target hsp hrange .crlf
    (h.headers.lines h.room)
  rwa [hdigit, Nat.add_sub_cancel_left] at hmk

/-- Whatever head is found is found again where it is written out. -/
theorem phrParseRequest_encode {live : List Byte} {already len : Nat}
    (h : phrParseRequest sse live already = .head len found) (rest : List Byte) :
    phrParseRequest sse (found.encode ++ rest) 0 = .head found.encode.length found := by
  obtain ⟨w, r, -, -, hw⟩ := phrParseRequest_sound h
  exact (phrParseRequest_head (p := []) (.inl rfl)).mpr ⟨_, rest, rfl, rfl, hw.ok.encode⟩

def foldedFound : ParsedHead :=
  ⟨str "GET", str "/", 1, [⟨some (str "A"), str "b"⟩, ⟨none, []⟩]⟩

theorem phrParseRequest_encode_folded :
    phrParseRequest true (foldedFound.encode ++ str "x") 0 =
      .head foldedFound.encode.length foldedFound :=
  @phrParseRequest_encode true foldedFound (str "GET  /  HTTP/1.1\nA:\t b \n  \r\n\r\n") 0 30
    (by decide +kernel) (str "x")

end Ioxd.Http
