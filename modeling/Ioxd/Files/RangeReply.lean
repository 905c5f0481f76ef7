import Ioxd.Files.Ranges
import Ioxd.Http.Labelled

/-!
# Parts on their way out

What a 206 is sent with once its span is known. A part goes out as the bytes
selected, under a line that says which they are, if that line has room in the
head and no other of its name is there; and where neither a filter nor a
delegate of the head is installed, this is what is on the wire.
-/

namespace Ioxd.Files

open Flat Numeral
open Ioxd.Pipe (Byte)
open Ioxd.Http (str Ctx Conn Scratch HandlerOp Reached Response HeadOk Arena arenaKeys
  arenaKeys_fields header headerLine putUint cstr respHeadCap maxRespHeaders sizeMax startLine)
open Ioxd.Http.Static (Range)
open Message (Head Field Declares)

variable {res : Response} {first last total : Nat}

-- ---------------------------------------------------------------------------
-- The line
-- ---------------------------------------------------------------------------

/-- The response takes one more line: its head is not sent, a header is free,
and the arena has the room. -/
structure Free (res : Response) (line : List Byte) : Prop where
  unsent : res.headSent = false
  header : res.nHeaders ≠ maxRespHeaders
  arena : line.length ≤ respHeadCap - res.contentTypeReserved - res.headLen

/-- The header lines of a response. -/
def lines (res : Response) : List Byte := res.head.read 0 res.headLen

def rangeText (first last total : Nat) : List Byte :=
  str "bytes " ++ (putUint first ++ str "-" ++ putUint last) ++ str "/" ++ putUint total

def rangeLine (first last total : Nat) : List Byte :=
  headerLine (str "content-range") (rangeText first last total)

theorem length_putDigits_le (base : Nat) (digit : Nat → Byte) (size v : Nat) :
    (Ioxd.Http.putDigits base digit size v).length ≤ size := by
  induction size generalizing v with
  | zero => exact Nat.le_refl _
  | succ size ih =>
    rw [Ioxd.Http.putDigits, List.length_append, List.length_singleton]
    split
    · exact Nat.succ_le_succ (Nat.zero_le _)
    · exact Nat.succ_le_succ (ih _)

theorem length_putUint_le (v : Nat) : (putUint v).length ≤ 20 := length_putDigits_le ..

theorem snprintf_rangeText (first last total : Nat) :
    snprintf 80 (str "bytes " ++ snprintf 48 (putUint first ++ str "-" ++ putUint last) ++
      str "/" ++ putUint total) = rangeText first last total := by
  have h1 := length_putUint_le first
  have h2 := length_putUint_le last
  have h3 := length_putUint_le total
  have hb : (str "bytes ").length = 6 := by decide
  have hd : (str "-").length = 1 := by decide
  have hs : (str "/").length = 1 := by decide
  rw [snprintf, snprintf, List.take_of_length_le, List.take_of_length_le]
  · rfl
  all_goals
    simp only [List.length_append, List.length_take]
    omega

def plainByte (c : Byte) : Bool := c != 0 && !((c < 0x20 && c != Ioxd.Http.tab) || c == 0x7f)

theorem rangeText_plain (first last total : Nat) :
    ∀ c ∈ rangeText first last total, plainByte c = true := by
  have hdig (v : Nat) : ∀ c ∈ putUint v, plainByte c = true := by
    intro c hc
    obtain ⟨k, hk, rfl⟩ := Ioxd.Http.putDigits_mem (by omega) hc
    clear hc
    revert k
    decide
  have hlit : ∀ c ∈ str "bytes " ++ str "-" ++ str "/", plainByte c = true :=
    List.all_eq_true.mp (by decide)
  intro c hc
  simp only [rangeText, List.mem_append] at hc
  rcases hc with ((hc | (hc | hc) | hc) | hc) | hc
  · exact hlit c (by simp [hc])
  · exact hdig _ c hc
  · exact hlit c (by simp [hc])
  · exact hdig _ c hc
  · exact hlit c (by simp [hc])
  · exact hdig _ c hc

theorem cstr_plain {value : List Byte} (h : ∀ c ∈ value, plainByte c = true) : cstr value = value := by
  rw [cstr, List.takeWhile_eq_self_iff]
  exact fun c hc => (Bool.and_eq_true _ _ ▸ h c hc).1

def plainName (name : List Byte) : Bool :=
  cstr name == name && name != [] && name.all Ioxd.Http.isTchar &&
    !Ioxd.Http.eqCi name (str "content-type") && !Ioxd.Http.ownedName name

theorem header_spec (res : Response) {name value : List Byte} (hn : plainName name = true)
    (hv : ∀ c ∈ value, plainByte c = true) :
    (Free res (headerLine name value) ∧ header res name value = (true, { res with
      headLen := res.headLen + (headerLine name value).length
      head := res.head.write res.headLen (headerLine name value)
      nHeaders := res.nHeaders + 1 })) ∨
    (¬ Free res (headerLine name value) ∧ header res name value = (false, res)) := by
  simp only [plainName, Bool.and_eq_true, beq_iff_eq, bne_iff_ne, Bool.not_eq_true'] at hn
  obtain ⟨⟨⟨⟨hc, hne⟩, htchar⟩, htype⟩, hown⟩ := hn
  have hvalid : Ioxd.Http.validFieldValue value = true :=
    List.all_eq_true.mpr fun c hc => (Bool.and_eq_true _ _ ▸ hv c hc).2
  unfold header
  simp only [cstr_plain hv, hc, hvalid, hne, htchar, htype, hown, or_false, not_true_eq_false,
    if_false, Bool.false_eq_true]
  by_cases hsent : res.headSent = true ∨ res.nHeaders = maxRespHeaders
  · rw [if_pos hsent]
    refine .inr ⟨fun hf => ?_, rfl⟩
    rcases hsent with h | h
    · rw [hf.unsent] at h
      cases h
    · exact hf.header h
  · rw [if_neg hsent]
    simp only [not_or, Bool.not_eq_true] at hsent
    unfold Response.headRoom
    by_cases hroom : (headerLine name value).length >
        respHeadCap - res.contentTypeReserved - res.headLen
    · rw [if_pos hroom]
      exact .inr ⟨fun hf => absurd hf.arena (Nat.not_le_of_gt hroom), rfl⟩
    · rw [if_neg hroom]
      exact .inl ⟨⟨hsent.1, hsent.2, Nat.le_of_not_gt hroom⟩, rfl⟩

theorem contentRange_spec (res : Response) (first last total : Nat) :
    (Free res (rangeLine first last total) ∧
      contentRange res (snprintf 48 (putUint first ++ str "-" ++ putUint last)) total =
        { res with
          headLen := res.headLen + (rangeLine first last total).length
          head := res.head.write res.headLen (rangeLine first last total)
          nHeaders := res.nHeaders + 1 }) ∨
    (¬ Free res (rangeLine first last total) ∧
      contentRange res (snprintf 48 (putUint first ++ str "-" ++ putUint last)) total = res) := by
  have hn : plainName (str "content-range") = true := by decide
  rw [contentRange, snprintf_rangeText]
  exact (header_spec res hn (rangeText_plain first last total)).imp
    (fun h => ⟨h.1, congrArg Prod.snd h.2⟩) fun h => ⟨h.1, congrArg Prod.snd h.2⟩

def keys (res : Response) : List (List Byte) := arenaKeys true [] (lines res)

theorem keys_arena {fs : List Field} (ha : Arena res fs) : keys res = fs.map (·.name) := by
  unfold keys lines
  rw [ha.2]
  exact arenaKeys_fields fs

/-- The response has no content-range yet. -/
def Unranged (res : Response) : Prop := res.hasHeader (str "content-range") = false

theorem unranged_fields {fs : List Field} (ha : Arena res fs) (hu : Unranged res) :
    fs.filter (·.name = str "content-range") = [] := by
  have hk : str "content-range" ∉ keys res := by
    simpa [Unranged, Response.hasHeader, keys, lines] using hu
  rw [keys_arena ha] at hk
  rw [List.filter_eq_nil_iff]
  intro f hf hn
  exact hk (of_decide_eq_true hn ▸ List.mem_map_of_mem hf)

def partShape (res : Response) (first last total : Nat) : Response :=
  (Ioxd.Http.contentLength (contentRange { res with status := 206 }
    (snprintf 48 (putUint first ++ str "-" ++ putUint last)) total)
    (UInt64.ofNat (last - first + 1))).2

/-- A part on its way: the status, a line that says which bytes they are and
stands alone, their number, and the bytes. -/
structure PartSent (res : Response) (total first last : Nat) (body : List Byte) (out : Out) :
    Prop where
  status : out.1.status = 206
  range : lines out.1 = lines res ++ rangeLine first last total
  alone : (keys out.1).count (str "content-range") = 1
  length : out.1.hasLength = true ∧ out.1.contentLength = last + 1 - first
  body : out.2 = body

theorem contentRange_arena {fs : List Field} (hok : HeadOk res) (ha : Arena res fs)
    (hf : Free res (rangeLine first last total)) : ∃ f : Field, f.name = str "content-range" ∧
      f.value = rangeText first last total ∧
      HeadOk (contentRange { res with status := 206 }
        (snprintf 48 (putUint first ++ str "-" ++ putUint last)) total) ∧
      Arena (contentRange { res with status := 206 }
        (snprintf 48 (putUint first ++ str "-" ++ putUint last)) total) (fs ++ [f]) := by
  have hline : 0 < (rangeLine first last total).length := by
    simp only [rangeLine, headerLine, List.length_append]
    have : (str ": ").length = 2 := by decide
    omega
  have hok' : HeadOk { res with status := 206 } := hok.congr rfl rfl rfl
  have hf' : Free { res with status := 206 } (rangeLine first last total) :=
    ⟨hf.unsent, hf.header, hf.arena⟩
  have hc := cstr_plain (rangeText_plain first last total)
  have hlen : (contentRange { res with status := 206 }
      (snprintf 48 (putUint first ++ str "-" ++ putUint last)) total).headLen =
      res.headLen + (rangeLine first last total).length := by
    rcases contentRange_spec { res with status := 206 } first last total with ⟨-, he⟩ | ⟨hn, -⟩
    · rw [he]
    · exact absurd hf' hn
  have hh := Ioxd.Http.header_headed hok' (show Arena { res with status := 206 } fs from ha)
    (str "content-range") (rangeText first last total)
  rw [contentRange, snprintf_rangeText] at hlen ⊢
  generalize header { res with status := 206 } (str "content-range")
    (rangeText first last total) = r at hh hlen
  cases hh with
  | refused =>
    have hz : res.headLen = res.headLen + (rangeLine first last total).length := hlen
    omega
  | typed ht => exact absurd ht (by decide)
  | @added res' f _ hname hvalue hok'' har _ =>
    refine ⟨f, ?_, hvalue.trans hc, hok'', har⟩
    rw [hname]
    decide

/-- The response `out` is as far under way as `res`. -/
structure Kept (res out : Response) : Prop where
  failed : out.failed = res.failed
  headSent : out.headSent = res.headSent
  chunked : out.chunked = res.chunked
  bodySent : out.bodySent = res.bodySent

theorem Kept.trans {res out out' : Response} (h : Kept res out) (h' : Kept out out') :
    Kept res out' :=
  ⟨h'.failed.trans h.failed, h'.headSent.trans h.headSent, h'.chunked.trans h.chunked,
    h'.bodySent.trans h.bodySent⟩

/-- The response `out` is `res` with the line of a part, its status and its
length. -/
structure Parted (res : Response) (fs : List Field) (first last total : Nat) (out : Response) :
    Prop where
  status : out.status = 206
  ok : HeadOk out
  line : ∃ f : Field, f.name = str "content-range" ∧ f.value = rangeText first last total ∧
    Arena out (fs ++ [f])
  lines : Files.lines out = Files.lines res ++ rangeLine first last total
  hasLength : out.hasLength = true
  contentLength : out.contentLength = last + 1 - first
  kept : Kept res out

theorem toNat_partLength (hle : first ≤ last) (hlt : last < total) (ht : total ≤ sizeMax) :
    (UInt64.ofNat (last - first + 1)).toNat = last + 1 - first := by
  unfold sizeMax at ht
  rw [UInt64.toNat_ofNat']
  omega

theorem partShape_parted {fs : List Field} (hok : HeadOk res) (ha : Arena res fs)
    (hle : first ≤ last) (hlt : last < total) (ht : total ≤ sizeMax)
    (hf : Free res (rangeLine first last total)) :
    Parted res fs first last total (partShape res first last total) := by
  obtain ⟨f, hname, hvalue, hok', har⟩ := contentRange_arena hok ha hf
  have hu : ¬ res.headSent = true := by
    rw [hf.unsent]
    decide
  rcases contentRange_spec { res with status := 206 } first last total with ⟨-, he⟩ | ⟨hno, -⟩
  · unfold partShape
    rw [he] at hok' har ⊢
    unfold Ioxd.Http.contentLength
    rw [if_neg hu]
    refine ⟨rfl, hok'.congr rfl rfl rfl, ⟨f, hname, hvalue, har⟩, ?_, rfl,
      toNat_partLength hle hlt ht, ⟨rfl, rfl, rfl, rfl⟩⟩
    simp only [Files.lines]
    rw [read_add, Nat.zero_add, read_write_self, read_write_below _ _ (by omega)]
  · exact absurd ⟨hf.unsent, hf.header, hf.arena⟩ hno

theorem partShape_refused (hf : ¬ Free res (rangeLine first last total)) :
    partShape res first last total = (Ioxd.Http.contentLength { res with status := 206 }
      (UInt64.ofNat (last - first + 1))).2 := by
  rcases contentRange_spec { res with status := 206 } first last total with ⟨⟨h1, h2, h3⟩, -⟩ | ⟨-, he⟩
  · exact absurd ⟨h1, h2, h3⟩ hf
  · rw [partShape, he]

theorem partSent_iff (hok : HeadOk res) (hle : first ≤ last) (hlt : last < total)
    (ht : total ≤ sizeMax) (body : List Byte) :
    PartSent res total first last body (partShape res first last total, body) ↔
      Free res (rangeLine first last total) ∧ Unranged res := by
  by_cases hf : Free res (rangeLine first last total)
  · obtain ⟨fs, ha⟩ := hok.fields
    have hp := partShape_parted hok ha hle hlt ht hf
    obtain ⟨f, hname, -, har⟩ := hp.line
    have hcount : (keys (partShape res first last total)).count (str "content-range") = 1 ↔
        Unranged res := by
      unfold Unranged Response.hasHeader
      rw [keys_arena har, List.map_append, List.map_singleton, hname, List.count_append,
        List.count_singleton_self, List.contains_eq_mem, decide_eq_false_iff_not,
        ← List.count_eq_zero, ← keys_arena ha]
      show _ ↔ (keys res).count _ = 0
      omega
    exact ⟨fun h => ⟨hf, hcount.mp h.alone⟩, fun h =>
      ⟨hp.status, hp.lines, hcount.mpr h.2, ⟨hp.hasLength, hp.contentLength⟩, rfl⟩⟩
  · refine iff_of_false (fun hp => ?_) fun h => hf h.1
    have hline : 0 < (rangeLine first last total).length := by
      simp only [rangeLine, headerLine, List.length_append]
      have : (str ": ").length = 2 := by decide
      omega
    have hsame : lines (partShape res first last total) = lines res := by
      rw [partShape_refused hf, Ioxd.Http.contentLength]
      split <;> rfl
    have hr := congrArg List.length hp.range
    rw [hsame, List.length_append] at hr
    omega

-- ---------------------------------------------------------------------------
-- On the wire
-- ---------------------------------------------------------------------------

/-- A response that a handler's calls have left open: nothing is written, and
neither a filter nor a delegate of the head is installed. -/
structure Unwritten (conn : Conn) (hreq : Ioxd.Http.Request) (scratch : Scratch) (ctx : Ctx) :
    Prop where
  writable : Ctx.Writable conn.out
  reached : Reached conn hreq scratch [] ctx
  unsent : ctx.res.headSent = false
  live : ctx.res.failed = false
  onHead : ctx.onHead = none
  sound : ctx.sock.Sound

variable {conn : Conn} {hreq : Ioxd.Http.Request} {scratch : Scratch} {ctx ctx' : Ctx}

theorem Unwritten.held (h : Unwritten conn hreq scratch ctx)
    (hm : Ioxd.Http.isHead hreq.method = false) :
    Ctx.Held (fun _ => False) conn.sock.wire [] ctx :=
  Ctx.reached_held h.writable hm h.reached h.unsent h.live

theorem Unwritten.shaped (h : Unwritten conn hreq scratch ctx)
    (hm : Ioxd.Http.isHead hreq.method = false) {out : Response} (hk : Kept ctx.res out)
    (hok : HeadOk out) (hl : out.contentLength ≤ sizeMax) :
    Ctx.Shaped conn.sock.wire [] out { ctx with res := out } :=
  ((h.held hm).setRes hk.failed hk.headSent hk.chunked hk.bodySent hok hl).shaped h.sound fun fn hfn => by
    have hn : some fn = none := hfn.symm.trans h.onHead
    cases hn

/-- Where these calls end well, the wire holds the head of a part and its bytes,
and the head says which they are. -/
def PartWired (res out : Response) (total first last : Nat) (body : List Byte)
    (ops : List HandlerOp) : Prop :=
  ∀ (conn : Conn) (hreq : Ioxd.Http.Request) (scratch : Scratch) (ctx ctx' : Ctx),
    Unwritten conn hreq scratch ctx → Ioxd.Http.isHead hreq.method = false → ctx.res = res →
    (Ctx.run { ctx with res := out } ops).settleBody.bodyErr = 0 →
    (Ctx.run { ctx with res := out } ops).settleBody.finish = (true, ctx') →
    ∃ hd : Head, ctx'.sock.wire = conn.sock.wire ++ hd.encode ++ body ∧
      hd.start = startLine 206 ∧ Declares hd (.length (last + 1 - first)) ∧
      hd.values (str "content-range") = [rangeText first last total]

theorem part_wired (hok : HeadOk res) (hle : first ≤ last) (hlt : last < total)
    (ht : total ≤ sizeMax) (hf : Free res (rangeLine first last total)) (hu : Unranged res)
    {ops : List HandlerOp} (hw : ∀ op ∈ ops, op.Writes)
    (hlen : (ops.flatMap (·.wrote)).length = last + 1 - first) :
    PartWired res (partShape res first last total) total first last (ops.flatMap (·.wrote)) ops := by
  rintro conn hreq scratch ctx ctx' h hm rfl he hr
  obtain ⟨fs, ha⟩ := hok.fields
  have hp := partShape_parted hok ha hle hlt ht hf
  generalize partShape ctx.res first last total = out at hp he hr
  obtain ⟨f, hname, hvalue, har⟩ := hp.line
  have hs := h.shaped hm hp.kept hp.ok (by
    rw [hp.contentLength]
    omega)
  have hbody : out.HasBody := by
    unfold Response.HasBody
    rw [hp.status]
    decide
  obtain ⟨-, hd, body, hheads, hwire, hframes⟩ := Ctx.uncoded_reply hs hbody hw he hr
  rw [List.nil_append] at hframes
  obtain ⟨rfl, hdec⟩ := hframes.announced hp.hasLength (hp.contentLength.trans hlen.symm)
  obtain ⟨hstart, hval⟩ := hheads.reads hp.ok har
  refine ⟨hd, hwire, ?_, hlen ▸ hdec, ?_⟩
  · rw [hstart, hp.status]
    rfl
  · rw [hval _ (by decide), List.filter_append, unranged_fields ha hu]
    simp [hname, hvalue]

/-- The calls that the loop of `stream` makes. -/
def streamCalls (file : List Byte) (turn : Nat → Turn) (t off n : Nat) : List HandlerOp :=
  if n = 0 ∨ (turn t).reserved = false then []
  else if readAt file (turn t).ready (min n piece) off = [] then
    [.reserve (min n piece) [] (Nat.zero_le _)]
  else
    .reserve (min n piece) (readAt file (turn t).ready (min n piece) off) (length_readAt_le ..) ::
      streamCalls file turn (t + 1) (off + (readAt file (turn t).ready (min n piece) off).length)
        (n - (readAt file (turn t).ready (min n piece) off).length)
termination_by n
decreasing_by
  rename_i hn hne
  have := List.length_pos_iff.mpr hne
  omega

theorem streamCalls_writes (file : List Byte) (turn : Nat → Turn) (t off n : Nat) :
    ∀ op ∈ streamCalls file turn t off n, op.Writes := by
  fun_induction streamCalls file turn t off n with
  | case1 => exact fun op hop => by cases hop
  | case2 =>
    intro op hop
    obtain rfl := List.mem_singleton.mp hop
    trivial
  | case3 t off n _ _ ih =>
    intro op hop
    rcases List.mem_cons.mp hop with rfl | hop
    · trivial
    · exact ih op hop

theorem streamCalls_wrote (file : List Byte) (turn : Nat → Turn) (t off n : Nat) :
    (streamCalls file turn t off n).flatMap (·.wrote) = streamLoop file turn t off n := by
  have hp (n : Nat) : min n piece ≤ Ioxd.Http.pipeCap := Nat.min_le_right ..
  fun_induction streamCalls file turn t off n with
  | case1 t off n hstop =>
    unfold streamLoop
    rw [if_pos hstop]
    rfl
  | case2 t off n hgo hgot =>
    unfold streamLoop
    rw [if_neg hgo, hgot]
    simp [HandlerOp.wrote]
  | case3 t off n hgo hgot ih =>
    obtain ⟨c, got, hc⟩ := List.exists_cons_of_ne_nil hgot
    unfold streamLoop
    rw [if_neg hgo, List.flatMap_cons, ih]
    simp only [HandlerOp.wrote, if_pos (hp n), hc, List.length_cons]

-- ---------------------------------------------------------------------------
-- Ranges as a whole
-- ---------------------------------------------------------------------------

variable {req : Request} {etag : List Byte} {data : Data} {turn : Nat → Turn}

def partOf (data : Data) (first last : Nat) : List Byte :=
  (data.bytes.drop first).take (last + 1 - first)

theorem length_partOf (hlt : last < data.bytes.length) :
    (partOf data first last).length = last + 1 - first := by
  rw [partOf, List.length_take, List.length_drop]
  omega

/-- Ranges are read and answered as they should be: no subtraction wraps, an
answer is of a range asked for, and a part goes out from memory or from the file
as the bytes it is of, and reaches the wire so. -/
structure RangesRight (req : Request) (etag : List Byte) (data : Data) (turn : Nat → Turn)
    (res : Response) : Prop where
  checked : req.rangeChecked etag data.bytes.length = some (req.rangeOf etag data.bytes.length)
  answers : Answers (req.AsksFor etag) data.bytes.length (req.rangeOf etag data.bytes.length)
  replied : ∃ out, replySpan req etag data res = some out ∧
    ∀ first last, req.rangeOf etag data.bytes.length = .one first last →
      PartSent res data.bytes.length first last
        (if req.head then [] else partOf data first last) out ∧
      (req.head = false → PartWired res out.1 data.bytes.length first last
        (partOf data first last) [.write out.2])
  streamed : ∃ out, streamSpan req etag data turn res = some out ∧
    ∀ first last, req.rangeOf etag data.bytes.length = .one first last →
      ∃ body, body <+: partOf data first last ∧
        (Smooth turn → body = partOf data first last) ∧
        PartSent res data.bytes.length first last (if req.head then [] else body) out ∧
        (req.head = false → Smooth turn → PartWired res out.1 data.bytes.length first last
          (partOf data first last) (streamCalls data.bytes turn 0 first (last - first + 1)))

theorem spanInto_one (hr : req.rangeOf etag total = .one first last)
    (hle : first ≤ last) : spanInto req etag total res =
      some (contentRange { res with status := 206 }
        (snprintf 48 (putUint first ++ str "-" ++ putUint last)) total,
        some (first, last - first + 1)) := by
  rw [spanInto, rangeChecked_eq, hr]
  simp only [Option.bind_eq_bind, Option.bind_some, subSize_eq hle]
  rfl

theorem replySpan_one
    (hr : req.rangeOf etag data.bytes.length = .one first last) (hle : first ≤ last)
    (hlt : last < data.bytes.length) : replySpan req etag data res =
      some (partShape res first last data.bytes.length,
        if req.head then [] else partOf data first last) := by
  have hn : last - first + 1 = last + 1 - first := by omega
  rw [replySpan, spanInto_one hr hle]
  simp only [Option.bind_eq_bind, Option.bind_some]
  by_cases hh : req.head = true
  · rw [if_pos hh, if_pos hh]
    rfl
  · rw [if_neg hh, if_neg hh, if_pos (by omega), partOf, ← hn]
    rfl

theorem streamSpan_one
    (hr : req.rangeOf etag data.bytes.length = .one first last) (hle : first ≤ last) :
    streamSpan req etag data turn res =
      some (partShape res first last data.bytes.length,
        if req.head then [] else streamLoop data.bytes turn 0 first (last - first + 1)) := by
  rw [streamSpan, spanInto_one hr hle]
  simp only [Option.bind_eq_bind, Option.bind_some]
  by_cases hh : req.head = true
  · rw [if_pos hh, if_pos hh]
    rfl
  · rw [if_neg hh, if_neg hh]
    rfl

theorem spanInto_none (hr : req.rangeOf etag total = .none) :
    spanInto req etag total res = some (res, some (0, total)) := by
  rw [spanInto, rangeChecked_eq, hr]
  rfl

/-- Without a part there is nothing to say but that a reply comes out. -/
theorem replySpan_other (hr : ∀ first last, req.rangeOf etag data.bytes.length ≠ .one first last) :
    (∃ out, replySpan req etag data res = some out) ∧
      ∃ out, streamSpan req etag data turn res = some out := by
  cases h : req.rangeOf etag data.bytes.length with
  | none =>
    rw [replySpan, streamSpan, spanInto_none h]
    simp only [Option.bind_eq_bind, Option.bind_some]
    constructor
    · split
      · exact ⟨_, rfl⟩
      · rw [if_pos (by omega)]
        exact ⟨_, rfl⟩
    · split
      · exact ⟨_, rfl⟩
      · exact ⟨_, rfl⟩
  | one first last => exact absurd h (hr first last)
  | bad =>
    rw [replySpan, streamSpan, spanInto, rangeChecked_eq, h]
    exact ⟨⟨_, rfl⟩, ⟨_, rfl⟩⟩

theorem byte_ranges (req : Request) (etag : List Byte) (data : Data) (turn : Nat → Turn)
    {res : Response} (hok : HeadOk res) : RangesRight req etag data turn res ↔
      ∀ first last, req.Asks etag data.bytes.length first last →
        Free res (rangeLine first last data.bytes.length) ∧ Unranged res := by
  have hans := rangeOf_answers req etag data.fits
  simp only [← rangeOf_eq_one_iff data.fits]
  constructor
  · intro h first last hr
    have ha := hr ▸ hans
    cases ha with
    | one _ hle hlt _ =>
      obtain ⟨out, ho, hp⟩ := h.replied
      rw [replySpan_one hr hle hlt, Option.some.injEq] at ho
      exact (partSent_iff hok hle hlt data.fits _).mp (ho ▸ (hp first last hr).1)
  · intro hfree
    by_cases hone : ∃ first last, req.rangeOf etag data.bytes.length = .one first last
    · obtain ⟨first, last, hr⟩ := hone
      have ha := hr ▸ hans
      cases ha with
      | one _ hle hlt _ =>
        obtain ⟨hf, hu⟩ := hfree first last hr
        have hlen := @length_partOf first last data hlt
        refine ⟨rangeChecked_eq .., hans, ⟨_, replySpan_one hr hle hlt, fun f l hr' => ?_⟩,
          ⟨_, streamSpan_one hr hle, fun f l hr' => ?_⟩⟩
        · cases hr.symm.trans hr'
          refine ⟨(partSent_iff hok hle hlt data.fits _).mpr ⟨hf, hu⟩, fun hh => ?_⟩
          rw [if_neg (by simp [hh])]
          have hone : [HandlerOp.write (partOf data first last)].flatMap (·.wrote) =
              partOf data first last := by simp [HandlerOp.wrote]
          have hw := part_wired hok hle hlt data.fits hf hu (fun op hop => by
            obtain rfl := List.mem_singleton.mp hop
            trivial) (hone ▸ hlen)
          rwa [hone] at hw
        · cases hr.symm.trans hr'
          have hpart : partOf data first last =
              (data.bytes.drop first).take (last - first + 1) := by
            rw [partOf, show last + 1 - first = last - first + 1 by omega]
          refine ⟨_, hpart ▸ streamLoop_prefix .., fun hs => ?_,
            (partSent_iff hok hle hlt data.fits _).mpr ⟨hf, hu⟩, fun _ hs => ?_⟩
          · rw [hpart]
            exact streamLoop_all hs (by omega)
          · have hall : (streamCalls data.bytes turn 0 first (last - first + 1)).flatMap (·.wrote) =
                partOf data first last := by
              rw [streamCalls_wrote, streamLoop_all hs (by omega), hpart]
            have hw := part_wired hok hle hlt data.fits hf hu
              (streamCalls_writes data.bytes turn 0 first (last - first + 1)) (hall ▸ hlen)
            rwa [hall] at hw
    · simp only [not_exists] at hone
      obtain ⟨⟨out, ho⟩, ⟨out', ho'⟩⟩ := @replySpan_other res req etag data turn hone
      exact ⟨rangeChecked_eq .., hans, ⟨out, ho, fun f l h => absurd h (hone f l)⟩,
        ⟨out', ho', fun f l h => absurd h (hone f l)⟩⟩

def fiveBytes : Data := ⟨str "abcde", by decide⟩

def firstTwo : Request where
  method := str "GET"
  accepts := fun _ => 0
  ifNoneMatch := none
  ifModifiedSince := none
  range := some (str "bytes=0-1")
  ifRange := none

theorem firstTwo_rangeOf : firstTwo.rangeOf [] fiveBytes.bytes.length = .one 0 1 := by decide

theorem byte_ranges_first_two : RangesRight firstTwo [] fiveBytes (fun _ => ⟨true, some 1⟩)
    (.init fun _ => 0) := by
  refine (byte_ranges firstTwo [] fiveBytes _ (Ioxd.Http.init_headOk _)).mpr fun first last ha => ?_
  cases firstTwo_rangeOf.symm.trans ((rangeOf_eq_one_iff fiveBytes.fits).mpr ha)
  exact ⟨⟨rfl, by decide, by decide⟩, (by decide : (Response.init fun _ => 0).hasHeader _ = false)⟩

/-- A response to which a handler has added as many headers as there may be. -/
def crowded : Response :=
  (List.range maxRespHeaders).foldl (fun res _ => (header res (str "x-h") (str "v")).2)
    (.init fun _ => 0)

theorem crowded_headOk : HeadOk crowded := by
  unfold crowded
  generalize List.range maxRespHeaders = l
  have h := Ioxd.Http.init_headOk fun _ => 0
  generalize Response.init (fun _ => 0) = res at h
  induction l generalizing res with
  | nil => exact h
  | cons _ l ih => exact ih _ (Ioxd.Http.header_headOk h _ _)

/-- Its 206 goes out without a word on which bytes it is of. -/
theorem byte_ranges_crowded : ¬ ∀ (req : Request) (etag : List Byte) (data : Data)
    (turn : Nat → Turn) (res : Response), HeadOk res → RangesRight req etag data turn res := by
  intro h
  obtain ⟨out, ho, hp⟩ :=
    (h firstTwo [] fiveBytes (fun _ => ⟨true, some 1⟩) crowded crowded_headOk).replied
  rw [replySpan_one firstTwo_rangeOf (by decide) (by decide), Option.some.injEq] at ho
  have hf := (partSent_iff crowded_headOk (by decide) (by decide) (by decide) _).mp
    (ho ▸ (hp 0 1 firstTwo_rangeOf).1)
  exact hf.1.header (by decide)

end Ioxd.Files
