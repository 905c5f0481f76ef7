import Ioxd.Http.Head
import Ioxd.Http.TextLaws

/-!
# The head that goes out

`HeadOk` is what the calls on a response keep: its arena holds whole header
lines in front and the content type behind, apart. From it `build_head` always
has room, and what it writes is one head that declares the framing it was
asked for.
-/

namespace Ioxd.Http

open Flat Numeral Message
open Ioxd.Pipe (Byte)

-- ---------------------------------------------------------------------------
-- Numbers
-- ---------------------------------------------------------------------------

section Digits

variable {base : Nat} {d : Nat → Byte} {digit : UInt8 → Option Nat}

theorem putDigits_length {size k v : Nat} (hv : v < base ^ (k + 1)) :
    (putDigits base d size v).length ≤ k + 1 := by
  induction size generalizing k v with
  | zero => simp [putDigits]
  | succ size ih =>
    unfold putDigits
    rw [List.length_append, List.length_singleton]
    split
    · simp
    · rename_i hq
      cases k with
      | zero =>
        rw [Nat.pow_one] at hv
        exact absurd (Nat.div_eq_of_lt hv) hq
      | succ k =>
        have hb : 0 < base := by
          rcases Nat.eq_zero_or_pos base with rfl | hb
          · simp at hv
          · exact hb
        have := ih (k := k) (v := v / base) (Nat.div_lt_of_lt_mul (by
          rwa [Nat.pow_succ, Nat.mul_comm] at hv))
        omega

theorem putDigits_size (size v : Nat) : (putDigits base d size v).length ≤ size := by
  induction size generalizing v with
  | zero => simp [putDigits]
  | succ size ih =>
    unfold putDigits
    have := ih (v / base)
    split
    · simp
    · simp only [List.length_append, List.length_singleton]
      omega

theorem putDigits_mem {size v : Nat} (hb : 0 < base) {c : Byte} (hc : c ∈ putDigits base d size v) :
    ∃ k < base, c = d k := by
  induction size generalizing v with
  | zero => simp [putDigits] at hc
  | succ size ih =>
    unfold putDigits at hc
    rcases List.mem_append.mp hc with hc | hc
    · split at hc
      · cases hc
      · exact ih hc
    · exact ⟨v % base, Nat.mod_lt _ hb, by simpa using hc⟩

theorem value_putDigits (hb : 1 < base) (hd : ∀ k < base, digit (d k) = some k) {size v : Nat}
    (hv : v < base ^ size) : value digit base (putDigits base d size v) 0 = v := by
  induction size generalizing v with
  | zero =>
    rw [Nat.pow_zero] at hv
    simp only [putDigits, value_nil]
    omega
  | succ size ih =>
    unfold putDigits
    have hq : v / base < base ^ size := Nat.div_lt_of_lt_mul (by
      rwa [Nat.pow_succ, Nat.mul_comm] at hv)
    have hdiv := Nat.div_add_mod v base
    rw [value_append, value_cons, value_nil, hd _ (Nat.mod_lt _ (by omega)), Option.getD_some]
    split
    · rename_i h0
      rw [h0] at hdiv
      rw [value_nil]
      omega
    · rw [ih hq, Nat.mul_comm]
      exact hdiv

theorem reads_putDigits (hb : 1 < base) (hd : ∀ k < base, digit (d k) = some k) {size v : Nat}
    (hv : v < base ^ (size + 1)) : Reads digit base (putDigits base d (size + 1) v) v := by
  refine ⟨?_, fun c hc => ?_, value_putDigits hb hd hv⟩
  · unfold putDigits
    simp
  · obtain ⟨k, hk, rfl⟩ := putDigits_mem (by omega) hc
    simp [hd k hk]

end Digits

theorem decimal_putUint {n : Nat} (hn : n ≤ sizeMax) : Decimal (putUint n) n := by
  refine reads_putDigits (by omega) (by decide) ?_
  unfold sizeMax at hn
  omega

theorem hex_putHex {n : Nat} (hn : n ≤ sizeMax) : Hex (putHex n) n := by
  refine reads_putDigits (by omega) (by decide) ?_
  unfold sizeMax at hn
  omega

theorem putUint_plain (n : Nat) : 58 ∉ putUint n ∧ 13 ∉ putUint n := by
  have h : ∀ k < 10, UInt8.ofNat (48 + k) ≠ 58 ∧ UInt8.ofNat (48 + k) ≠ 13 := by decide
  constructor
  all_goals
    intro hm
    obtain ⟨k, hk, he⟩ := putDigits_mem (by omega) hm
  · exact (h k hk).1 he.symm
  · exact (h k hk).2 he.symm

-- ---------------------------------------------------------------------------
-- The arena
-- ---------------------------------------------------------------------------

def Added (f : Field) : Prop :=
  f.name ≠ str "content-length" ∧ f.name ≠ str "transfer-encoding" ∧ f.name ≠ str "connection" ∧
    f.name ≠ str "content-type"

/-- The arena holds the lines of these fields. -/
def Arena (res : Response) (fs : List Field) : Prop :=
  (∀ f ∈ fs, Added f) ∧ res.head.read 0 res.headLen = fs.flatMap (·.line ++ crlf)

/-- The arena: whole lines up to `head_len`, and a copied content type at its
end. A literal one is a short text of the source. -/
structure HeadOk (res : Response) : Prop where
  fields : ∃ fs : List Field, Arena res fs
  type : 13 ∉ res.contentTypeBytes
  room : match res.contentType with
    | .literal text => text.length ≤ 32 ∧ res.headLen ≤ respHeadCap
    | .arena off len => off + len = respHeadCap ∧ res.headLen ≤ off

theorem HeadOk.congr {res res' : Response} (h : HeadOk res) (h1 : res'.head = res.head)
    (h2 : res'.headLen = res.headLen) (h3 : res'.contentType = res.contentType) : HeadOk res' := by
  obtain ⟨hf, ht, hr⟩ := h
  refine ⟨by unfold Arena; rwa [h1, h2], ?_, by rwa [h2, h3]⟩
  unfold Response.contentTypeBytes at ht ⊢
  rwa [h1, h3]

theorem init_headOk (head : Mem Byte) : HeadOk (.init head) where
  fields := ⟨[], by simp, by simp [Response.init]⟩
  type := by simp only [Response.contentTypeBytes, Response.init]; decide
  room := by simp only [Response.init]; decide

theorem validFieldValue_cr {v : List Byte} (h : validFieldValue v = true) : 13 ∉ v := by
  intro hm
  have := List.all_eq_true.mp h 13 hm
  revert this
  decide

set_option maxRecDepth 4096 in
theorem tchar_plain (c : Byte) :
    isTchar c = true → lowerAscii c ≠ 58 ∧ lowerAscii c ≠ 13 :=
  forall_byte (P := fun c => isTchar c = true → lowerAscii c ≠ 58 ∧ lowerAscii c ≠ 13)
    (by decide +kernel) c

theorem contentType_arena {res : Response} (h : HeadOk res) (type : List Byte) {fs : List Field}
    (ha : Arena res fs) : HeadOk (contentType res type).2 ∧ Arena (contentType res type).2 fs := by
  unfold contentType
  dsimp only
  split
  · exact ⟨h, ha⟩
  split
  · exact ⟨h, ha⟩
  rename_i hv
  split
  · exact ⟨h, ha⟩
  rename_i hlen
  have hroom : res.headLen ≤ respHeadCap := by
    have := h.room
    split at this <;> omega
  have ha' : Arena { res with
      head := res.head.write (respHeadCap - (cstr type).length) (cstr type)
      contentType := .arena (respHeadCap - (cstr type).length) (cstr type).length } fs :=
    ⟨ha.1, ha.2 ▸ read_write_below _ _ (by dsimp only; omega)⟩
  refine ⟨⟨⟨fs, ha'⟩, ?_, ?_⟩, ha'⟩
  · simp only [Response.contentTypeBytes]
    rw [read_write_self]
    exact validFieldValue_cr (by simpa using hv)
  · dsimp only
    omega

theorem contentType_headOk {res : Response} (h : HeadOk res) (type : List Byte) :
    HeadOk (contentType res type).2 :=
  (contentType_arena h type h.fields.choose_spec).1

theorem headRoom_spec {res res' : Response} (h : HeadOk res) {n off : Nat}
    (hr : res.headRoom n = some (off, res')) :
    off = res.headLen ∧ res' = { res with headLen := res.headLen + n } ∧
      match res.contentType with
      | .literal _ => res.headLen + n ≤ respHeadCap
      | .arena off _ => res.headLen + n ≤ off := by
  have hroom := h.room
  unfold Response.headRoom at hr
  by_cases hn : n > respHeadCap - res.contentTypeReserved - res.headLen
  · rw [if_pos hn] at hr
    cases hr
  rw [if_neg hn] at hr
  obtain ⟨rfl, rfl⟩ := Prod.mk.inj (Option.some.inj hr)
  refine ⟨rfl, rfl, ?_⟩
  unfold Response.contentTypeReserved at hn
  cases hc : res.contentType with
  | literal text =>
    simp only [hc] at hroom hn ⊢
    omega
  | arena o l =>
    simp only [hc] at hroom hn ⊢
    split at hn <;> omega

/-- What a call of `ioxd_header` comes to. -/
inductive Headed (res : Response) (fs : List Field) (name value : List Byte) :
    Bool × Response → Prop
  | refused : Headed res fs name value (false, res)
  | typed : eqCi (cstr name) (str "content-type") = true → HeadOk (contentType res (cstr value)).2 →
      Arena (contentType res (cstr value)).2 fs →
      Headed res fs name value (contentType res (cstr value))
  | added {res' : Response} {f : Field} : ¬ eqCi (cstr name) (str "content-type") = true →
      f.name = (cstr name).map lowerAscii → f.value = cstr value → HeadOk res' →
      Arena res' (fs ++ [f]) → res'.contentTypeBytes = res.contentTypeBytes →
      Headed res fs name value (true, res')

theorem header_headed {res : Response} (h : HeadOk res) {fs : List Field} (ha : Arena res fs)
    (name value : List Byte) : Headed res fs name value (header res name value) := by
  unfold header
  dsimp only
  split
  · exact .refused
  split
  · exact .refused
  rename_i htc
  split
  · exact .refused
  rename_i hv
  split
  · rename_i hct
    obtain ⟨hok, har⟩ := contentType_arena h (cstr value) ha
    exact .typed hct hok har
  rename_i hct
  split
  · exact .refused
  rename_i hown
  generalize hnm : cstr name = cname at *
  generalize hvl : cstr value = cvalue at *
  cases hr : res.headRoom (headerLine cname cvalue).length with
  | none => exact .refused
  | some p =>
    obtain ⟨off, res'⟩ := p
    obtain ⟨rfl, rfl, hfit⟩ := headRoom_spec h hr
    obtain ⟨hadd, hread⟩ := ha
    have hplain : ∀ c ∈ cname.map lowerAscii, c ≠ 58 ∧ c ≠ 13 := by
      intro c hc
      obtain ⟨a, ha, rfl⟩ := List.mem_map.mp hc
      exact tchar_plain a (List.all_eq_true.mp (by simpa using htc) a ha)
    let f : Field := ⟨cname.map lowerAscii, cvalue, ⟨fun hm => (hplain _ hm).1 rfl,
      fun hm => (hplain _ hm).2 rfl⟩, validFieldValue_cr (by simpa using hv)⟩
    have hline : headerLine cname cvalue = f.line ++ crlf := by
      have hc : str ": " = colon := by decide
      simp only [headerLine, Field.line, f, hc]
    have hci (lit : List Byte) (hlit : lit.map lowerAscii = lit)
        (hne : ¬ eqCi cname lit = true) : f.name ≠ lit := by
      intro he
      apply hne
      unfold eqCi
      rw [hlit, Bool.and_eq_true, beq_iff_eq, beq_iff_eq]
      exact ⟨by rw [← he, List.length_map], he⟩
    simp only [ownedName, Bool.or_eq_true, not_or] at hown
    have har : Arena { res with
        headLen := res.headLen + (headerLine cname cvalue).length
        head := res.head.write res.headLen (headerLine cname cvalue)
        nHeaders := res.nHeaders + 1 } (fs ++ [f]) := by
      constructor
      · intro g hg
        rcases List.mem_append.mp hg with hg | hg
        · exact hadd g hg
        · obtain rfl : g = f := by simpa using hg
          exact ⟨hci _ (by decide) hown.1.1, hci _ (by decide) hown.1.2, hci _ (by decide) hown.2,
            hci _ (by decide) hct⟩
      · show (res.head.write res.headLen (headerLine cname cvalue)).read 0
          (res.headLen + (headerLine cname cvalue).length) = _
        rw [read_write_behind _ _ (by omega), hread, List.flatMap_append, hline]
        simp
    have htype : Response.contentTypeBytes { res with
        headLen := res.headLen + (headerLine cname cvalue).length
        head := res.head.write res.headLen (headerLine cname cvalue)
        nHeaders := res.nHeaders + 1 } = res.contentTypeBytes := by
      have hroom := h.room
      unfold Response.contentTypeBytes
      cases hc : res.contentType with
      | literal text => rfl
      | arena o l =>
        simp only [hc] at hfit hroom ⊢
        rw [read_write_above _ _ (by omega)]
    refine .added (f := f) (by rw [hnm]; exact hct) (by rw [hnm]) (by rw [hvl])
      ⟨⟨_, har⟩, htype ▸ h.type, ?_⟩ har htype
    · have hroom := h.room
      cases hc : res.contentType with
      | literal text =>
        simp only [hc] at hfit hroom ⊢
        omega
      | arena o l =>
        simp only [hc] at hfit hroom ⊢
        omega

theorem header_headOk {res : Response} (h : HeadOk res) (name value : List Byte) :
    HeadOk (header res name value).2 := by
  obtain ⟨fs, ha⟩ := h.fields
  have hh := header_headed h ha name value
  generalize header res name value = r at hh
  cases hh with
  | refused => exact h
  | typed _ hok _ => exact hok
  | added _ _ _ hok _ _ => exact hok

-- ---------------------------------------------------------------------------
-- The head
-- ---------------------------------------------------------------------------

theorem putPieces_eq {cap : Nat} {ps : List Piece} {acc : List Byte}
    (hb : ∀ p ∈ ps, p.bytes.length ≤ p.need) (h : acc.length + (ps.map (·.need)).sum ≤ cap) :
    putPieces cap ps acc = some (acc ++ ps.flatMap (·.bytes)) := by
  induction ps generalizing acc with
  | nil => simp [putPieces]
  | cons p ps ih =>
    simp only [List.map_cons, List.sum_cons] at h
    have hp := hb p (by simp)
    unfold putPieces
    rw [if_neg (by omega), ih (fun q hq => hb q (List.mem_cons_of_mem _ hq))]
    · simp
    · rw [List.length_append]
      omega

theorem putPieces_length {cap : Nat} {ps : List Piece} {acc out : List Byte}
    (hb : ∀ p ∈ ps, p.bytes.length ≤ p.need) (hacc : acc.length ≤ cap)
    (h : putPieces cap ps acc = some out) : out.length ≤ cap := by
  induction ps generalizing acc with
  | nil =>
    obtain rfl : acc = out := by simpa [putPieces] using h
    exact hacc
  | cons p ps ih =>
    unfold putPieces at h
    split at h
    · cases h
    · have hp := hb p (by simp)
      refine ih (fun q hq => hb q (List.mem_cons_of_mem _ hq)) ?_ h
      rw [List.length_append]
      omega

/-- What the status line says. -/
def startLine (status : Nat) : List Byte :=
  str "HTTP/1.1 " ++ putUint status ++ str " " ++ reason status

theorem reason_plain (status : Nat) : 13 ∉ reason status ∧ (reason status).length ≤ 31 := by
  unfold reason
  split <;> decide

theorem startLine_plain (status : Nat) : startLine status ≠ [] ∧ 13 ∉ startLine status := by
  have h1 := (putUint_plain status).2
  have h2 := (reason_plain status).1
  constructor
  · simp [startLine, text]
  · simp only [startLine, List.mem_append, not_or]
    exact ⟨⟨⟨by decide, h1⟩, by decide⟩, h2⟩

theorem statusPieces_spec {status : Nat} (h : 100 ≤ status ∧ status ≤ 999) :
    (statusPieces status).flatMap (·.bytes) = startLine status ++ crlf ∧
      (∀ p ∈ statusPieces status, p.bytes.length ≤ p.need) ∧
      ((statusPieces status).map (·.need)).sum ≤ 46 := by
  have hlen : (putUint status).length ≤ 3 := putDigits_length (by omega)
  have hr := (reason_plain status).2
  unfold statusPieces
  split
  · rename_i line hl
    unfold statusLine at hl
    split at hl
    all_goals cases hl
    all_goals decide
  · refine ⟨?_, ?_, ?_⟩
    · simp [put, startLine]
    · intro p hp
      simp only [List.mem_cons, List.not_mem_nil, or_false] at hp
      rcases hp with rfl | rfl | rfl | rfl | rfl
      · exact Nat.le_refl _
      · exact hlen
      all_goals exact Nat.le_refl _
    · have h1 : (str "HTTP/1.1 ").length = 9 := by decide
      have h2 : (str " ").length = 1 := by decide
      simp only [put, List.map_cons, List.map_nil, List.sum_cons, List.sum_nil, h1, h2,
        List.length_cons, List.length_nil]
      omega

def frameFields (frame : Frame) (bodyLen : Nat) : List Field :=
  match frame with
  | .length => [⟨str "content-length", putUint bodyLen, by decide, (putUint_plain bodyLen).2⟩]
  | .chunked => [⟨str "transfer-encoding", str "chunked", by decide, by decide⟩]
  | _ => []

def connectionFields (minorVersion : Nat) (keep : Bool) : List Field :=
  if ¬ keep then [⟨str "connection", str "close", by decide, by decide⟩]
  else if minorVersion = 0 then [⟨str "connection", str "keep-alive", by decide, by decide⟩]
  else []

theorem framePieces_spec (frame : Frame) (bodyLen : Nat) :
    (framePieces frame bodyLen).flatMap (·.bytes) =
        (frameFields frame bodyLen).flatMap (·.line ++ crlf) ∧
      (∀ p ∈ framePieces frame bodyLen, p.bytes.length ≤ p.need) ∧
      ((framePieces frame bodyLen).map (·.need)).sum ≤ 38 := by
  have hlen : (putUint bodyLen).length ≤ 20 := putDigits_size ..
  cases frame with
  | length =>
    have hc : str "content-length: " = str "content-length" ++ colon := by decide
    refine ⟨?_, ?_, ?_⟩
    · simp [framePieces, frameFields, put, Field.line, hc]
    · intro p hp
      simp only [framePieces, List.mem_cons, List.not_mem_nil, or_false] at hp
      rcases hp with rfl | rfl | rfl
      · exact Nat.le_refl _
      · exact hlen
      · exact Nat.le_refl _
    · simp only [framePieces, put, List.map_cons, List.map_nil]
      decide
  | chunked =>
    simp only [framePieces, frameFields]
    decide
  | untilClose => simp [framePieces, frameFields]
  | none => simp [framePieces, frameFields]

theorem connectionPieces_spec (minorVersion : Nat) (keep : Bool) :
    (connectionPieces minorVersion keep).flatMap (·.bytes) =
        (connectionFields minorVersion keep).flatMap (·.line ++ crlf) ∧
      (∀ p ∈ connectionPieces minorVersion keep, p.bytes.length ≤ p.need) ∧
      ((connectionPieces minorVersion keep).map (·.need)).sum ≤ 24 := by
  unfold connectionPieces connectionFields
  split
  · decide
  · split <;> decide

theorem wireStatus_range (status : Int) : 100 ≤ wireStatus status ∧ wireStatus status ≤ 999 := by
  unfold wireStatus
  split <;> omega

/-- The framing that `build_head` is asked for. -/
def Frame.framing (bodyLen : Nat) : Frame → Message.Framing
  | .length => .length bodyLen
  | .chunked => .chunked
  | _ => .untilClose

/-- `build_head` has room, and writes one head: the engine's fields and those of
the arena. -/
theorem buildHead_fields {res : Response} (h : HeadOk res) {fs : List Field} (ha : Arena res fs)
    (minorVersion : Nat) (keepAlive : Bool) (frame : Frame) (bodyLen : Nat) :
    ∃ (hd : Message.Head) (type : Field),
      buildHead minorVersion keepAlive res headCap frame bodyLen = some hd.encode ∧
      hd.start = startLine (wireStatus res.status) ∧ type.name = str "content-type" ∧
      type.value = res.contentTypeBytes ∧ hd.fields = type :: frameFields frame bodyLen ++
        connectionFields minorVersion (keepAlive && !res.close) ++ fs ∧
      hd.encode.length ≤ headCap := by
  obtain ⟨hadd, hread⟩ := ha
  let type : Field := ⟨str "content-type", res.contentTypeBytes, by decide, h.type⟩
  let hd : Message.Head := ⟨startLine (wireStatus res.status),
    type :: frameFields frame bodyLen ++ connectionFields minorVersion (keepAlive && !res.close) ++ fs,
    startLine_plain _⟩
  have hsize : res.contentTypeBytes.length + res.headLen ≤ respHeadCap + 32 := by
    have hroom := h.room
    unfold Response.contentTypeBytes
    cases hc : res.contentType with
    | literal text =>
      simp only [hc] at hroom ⊢
      omega
    | arena off len =>
      simp only [hc, length_read] at hroom ⊢
      omega
  obtain ⟨s1, s2, s3⟩ := statusPieces_spec (wireStatus_range res.status)
  obtain ⟨f1, f2, f3⟩ := framePieces_spec frame bodyLen
  obtain ⟨c1, c2, c3⟩ := connectionPieces_spec minorVersion (keepAlive && !res.close)
  have hput : ∀ bs : List Byte, (put bs).bytes.length ≤ (put bs).need := fun _ => Nat.le_refl _
  have hneed : ∀ p ∈ statusPieces (wireStatus res.status) ++
      [put (str "content-type: "), put res.contentTypeBytes, put crlf] ++
      framePieces frame bodyLen ++ connectionPieces minorVersion (keepAlive && !res.close) ++
      [put (res.head.read 0 res.headLen), put crlf], p.bytes.length ≤ p.need := by
    simp only [List.mem_append, List.mem_cons, List.not_mem_nil, or_false]
    rintro p ((((hp | rfl | rfl | rfl) | hp) | hp) | rfl | rfl)
    · exact s2 p hp
    · exact hput _
    · exact hput _
    · exact hput _
    · exact f2 p hp
    · exact c2 p hp
    · exact hput _
    · exact hput _
  have hbuild : buildHead minorVersion keepAlive res headCap frame bodyLen = some hd.encode := by
    unfold buildHead
    rw [putPieces_eq hneed]
    · have ht : str "content-type: " = str "content-type" ++ colon := by decide
      have hl (fs : List Field) : List.flatMap (fun x => x ++ crlf) (fs.map Field.line) =
          fs.flatMap (·.line ++ crlf) := by rw [List.flatMap_map]
      simp only [List.flatMap_append, List.flatMap_cons, List.flatMap_nil, List.append_nil,
        List.nil_append, s1, f1, c1, put, ht, hread, hd, Head.encode, encodeLines, Head.lines,
        List.map_append, List.map_cons, Field.line, hl, List.append_assoc, List.cons_append, type]
    · have ht : (str "content-type: ").length = 14 := by decide
      simp only [List.map_append, List.sum_append, List.map_cons, List.map_nil, List.sum_cons,
        List.sum_nil, put, List.length_nil, length_read, ht, List.length_cons]
      have h1 : respHeadCap = 3072 := rfl
      have h2 : headCap = 4096 := rfl
      omega
  exact ⟨hd, type, hbuild, rfl, rfl, rfl, rfl, putPieces_length hneed (Nat.zero_le _) hbuild⟩

/-- The values of a field that the engine does not write are those of the
arena. -/
theorem values_arena {hd : Message.Head} {type : Field} {fs : List Field} {frame : Frame}
    {bodyLen minorVersion : Nat} {keep : Bool} (name : List Byte)
    (ht : type.name = str "content-type")
    (hf : hd.fields = type :: frameFields frame bodyLen ++ connectionFields minorVersion keep ++ fs)
    (hn : str "content-type" ≠ name ∧ str "connection" ≠ name) :
    hd.values name = ((frameFields frame bodyLen).filter (·.name = name)).map (·.value) ++
      (fs.filter (·.name = name)).map (·.value) := by
  have hconn : (connectionFields minorVersion keep).filter (·.name = name) = [] := by
    unfold connectionFields
    split
    · simp [hn.2]
    · split <;> simp [hn.2]
  unfold Head.values
  rw [hf]
  simp only [List.filter_append, List.filter_cons, List.cons_append, hconn, ht, hn.1, decide_false,
    Bool.false_eq_true, if_false, List.append_nil, List.map_append]

/-- `build_head` has room, and writes one head that declares what it should. -/
theorem buildHead_spec {res : Response} (h : HeadOk res) {fs : List Field} (ha : Arena res fs)
    (minorVersion : Nat) (keepAlive : Bool) (frame : Frame) {bodyLen : Nat}
    (hlen : bodyLen ≤ sizeMax) :
    ∃ hd : Message.Head, buildHead minorVersion keepAlive res headCap frame bodyLen = some hd.encode ∧
      hd.start = startLine (wireStatus res.status) ∧ Declares hd (frame.framing bodyLen) ∧
      hd.encode.length < 2 ^ 31 ∧ hd.values (str "content-encoding") =
        (fs.filter (·.name = str "content-encoding")).map (·.value) := by
  obtain ⟨hd, type, hbuild, hstart, ht, -, hf, hsize⟩ :=
    buildHead_fields h ha minorVersion keepAlive frame bodyLen
  have hcap : headCap < 2 ^ 31 := by decide
  refine ⟨hd, hbuild, hstart, ?_, hsize.trans_lt hcap, ?_⟩
  · have hfs (name : List Byte) (hn : ∀ f ∈ fs, f.name ≠ name) :
        fs.filter (·.name = name) = [] := by
      rw [List.filter_eq_nil_iff]
      intro f hf
      simpa using hn f hf
    have hte := hfs (str "transfer-encoding") fun f hf => (ha.1 f hf).2.1
    have hcl := hfs (str "content-length") fun f hf => (ha.1 f hf).1
    have v1 := values_arena (str "transfer-encoding") ht hf (by decide)
    have v2 := values_arena (str "content-length") ht hf (by decide)
    rw [hte, List.map_nil, List.append_nil] at v1
    rw [hcl, List.map_nil, List.append_nil] at v2
    cases frame with
    | length => exact .length v1 v2 (decimal_putUint hlen)
    | chunked => exact .chunked v1 v2
    | untilClose => exact .untilClose v1 v2
    | none => exact .untilClose v1 v2
  · rw [values_arena _ ht hf (by decide)]
    cases frame <;> rfl

end Ioxd.Http
