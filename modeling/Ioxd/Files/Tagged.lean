import Ioxd.Files.Named
import Ioxd.Files.RangeReply
import Ioxd.Files.Dates

/-!
# One representation for a tag

A tag is of a file, whatever variant of it is picked. Where no filter codes the
replies, it names one representation as long as the twins hold the bytes of the
file: what a client has on the wire, whole or in part, is of that one.
-/

namespace Ioxd.Files

open Flat Numeral
open Ioxd.Pipe (Byte)
open Ioxd.Http (str Coding Ctx Conn Scratch HandlerOp HeadOp Response HeadOk Arena header headerLine
  putUint cstr lowerAscii sizeMax startLine)
open Ioxd.Http.Static (Reply)
open Message (Head Field)

-- ---------------------------------------------------------------------------
-- The response that a reply shapes
-- ---------------------------------------------------------------------------

/-- A response with more header lines, as far as they are taken. -/
def withHeaders (res : Response) (lines : List (List Byte × List Byte)) : Response :=
  lines.foldl (fun res line => (header res line.1 line.2).2) res

variable {res : Response} {ctx : Ctx} {fs : List Field} {lines : List (List Byte × List Byte)}

theorem foldl_header (ctx : Ctx) (lines : List (List Byte × List Byte)) :
    (lines.map fun line => HeadOp.header line.1 line.2).foldl Ctx.headOp ctx =
      { ctx with res := withHeaders ctx.res lines } := by
  induction lines generalizing ctx with
  | nil => rfl
  | cons line lines ih => exact ih _

/-- Header calls leave the rest of a response as it is. -/
structure Lined (res out : Response) : Prop where
  status : out.status = res.status
  contentLength : out.contentLength = res.contentLength
  kept : Kept res out

theorem Lined.trans {out out' : Response} (h : Lined res out) (h' : Lined out out') :
    Lined res out' :=
  ⟨h'.status.trans h.status, h'.contentLength.trans h.contentLength, h.kept.trans h'.kept⟩

theorem header_lined (res : Response) (name value : List Byte) :
    Lined res (header res name value).2 := by
  obtain ⟨_, _, _, _, h⟩ := Ctx.header_rest res name value
  rw [h]
  exact ⟨rfl, rfl, rfl, rfl, rfl, rfl⟩

theorem withHeaders_lined (res : Response) (lines : List (List Byte × List Byte)) :
    Lined res (withHeaders res lines) := by
  induction lines generalizing res with
  | nil => exact ⟨rfl, rfl, rfl, rfl, rfl, rfl⟩
  | cons line lines ih => exact (header_lined res _ _).trans (ih _)

theorem withHeaders_headOk (hok : HeadOk res) (lines : List (List Byte × List Byte)) :
    HeadOk (withHeaders res lines) := by
  induction lines generalizing res with
  | nil => exact hok
  | cons line lines ih => exact ih (Ioxd.Http.header_headOk hok _ _)

/-- The lines that are there stay, and none of another name is added. -/
theorem withHeaders_arena (hok : HeadOk res) (ha : Arena res fs) {key : List Byte}
    (hk : ∀ line ∈ lines, (cstr line.1).map lowerAscii ≠ key) :
    ∃ fs', Arena (withHeaders res lines) fs' ∧ fs <+: fs' ∧
      fs'.filter (·.name = key) = fs.filter (·.name = key) := by
  induction lines generalizing res fs with
  | nil => exact ⟨fs, ha, List.prefix_rfl, rfl⟩
  | cons line lines ih =>
    obtain ⟨fs₁, ha₁, hp₁, hf₁⟩ :=
      Ioxd.Http.header_values hok ha (hk line (List.mem_cons_self ..)) line.2
    obtain ⟨fs₂, ha₂, hp₂, hf₂⟩ := ih (Ioxd.Http.header_headOk hok _ _) ha₁
      fun l hl => hk l (List.mem_cons_of_mem _ hl)
    exact ⟨fs₂, ha₂, hp₁.trans hp₂, hf₂.trans hf₁⟩

/-- The lines of `head_of`. -/
def openingLines (r : Reply) : List (List Byte × List Byte) :=
  [(str "etag", r.etag), (str "last-modified", r.modified)] ++
    r.cacheControl.toList.map (str "cache-control", ·) ++
    if r.twins then [(str "vary", str "accept-encoding")] else []

/-- All lines of a reply that is not cut short, up to its content-range. -/
def replyLines (r : Reply) : List (List Byte × List Byte) :=
  openingLines r ++ (str "accept-ranges", str "bytes") ::
    r.variant.toList.map fun coding => (str "content-encoding", coding.name)

theorem headOf_eq (r : Reply) :
    r.headOf = (openingLines r).map fun line => HeadOp.header line.1 line.2 := by
  unfold Reply.headOf openingLines
  cases r.cacheControl <;> cases r.twins <;> rfl

theorem label_eq (r : Reply) : r.label =
    (r.variant.toList.map fun coding => (str "content-encoding", coding.name)).map
      fun line => HeadOp.header line.1 line.2 := by
  unfold Reply.label
  cases r.variant <;> rfl

def replyNames : List (List Byte) :=
  [str "etag", str "last-modified", str "cache-control", str "vary", str "accept-ranges",
    str "content-encoding"]

theorem replyLines_names (r : Reply) : ∀ line ∈ replyLines r, line.1 ∈ replyNames := by
  intro line hl
  simp only [replyLines, openingLines, List.mem_append, List.mem_cons, List.mem_map,
    List.not_mem_nil, or_false] at hl
  unfold replyNames
  rcases hl with (((rfl | rfl) | ⟨c, -, rfl⟩) | hl) | rfl | ⟨c, -, rfl⟩
  · simp
  · simp
  · simp
  · split at hl
    · obtain rfl := List.mem_singleton.mp hl
      simp
    · cases hl
  · simp
  · simp

theorem replyLines_unranged (r : Reply) : ∀ line ∈ replyLines r,
    (cstr line.1).map lowerAscii ≠ str "content-range" := by
  have hall : ∀ name ∈ replyNames, (cstr name).map lowerAscii ≠ str "content-range" := by decide
  exact fun line hl => hall _ (replyLines_names r line hl)

theorem replyLines_untyped (r : Reply) : ∀ line ∈ replyLines r,
    Ioxd.Http.eqCi (cstr line.1) (str "content-type") = false := by
  have hall : ∀ name ∈ replyNames,
      Ioxd.Http.eqCi (cstr name) (str "content-type") = false := by decide
  exact fun line hl => hall _ (replyLines_names r line hl)

def typed (r : Reply) (res : Response) : Response := { res with contentType := .literal r.type }

theorem head_notModified (r : Reply) (ctx : Ctx) (h : r.notModified = true) : r.head ctx =
    { ctx with res := { withHeaders (typed r ctx.res) (openingLines r) with status := 304 } } := by
  unfold Reply.head
  rw [headOf_eq, foldl_header, if_pos h]
  rfl

theorem head_eq (r : Reply) (ctx : Ctx) (h : r.notModified = false) : r.head ctx =
    r.spanOf.foldl Ctx.headOp
      { ctx with res := withHeaders (typed r ctx.res) (replyLines r) } := by
  have hlines : replyLines r = openingLines r ++ ((str "accept-ranges", str "bytes") ::
      r.variant.toList.map fun coding => (str "content-encoding", coding.name)) := rfl
  unfold Reply.head
  rw [headOf_eq, foldl_header, if_neg (by simp [h]), label_eq, ← List.cons_append,
    List.foldl_append]
  have hrest := foldl_header { ctx with res := withHeaders (typed r ctx.res) (openingLines r) }
    ((str "accept-ranges", str "bytes") ::
      r.variant.toList.map fun coding => (str "content-encoding", coding.name))
  rw [List.map_cons] at hrest
  show List.foldl Ctx.headOp (List.foldl Ctx.headOp _ _) _ = _
  refine congrArg (List.foldl Ctx.headOp · r.spanOf) (hrest.trans ?_)
  rw [hlines, withHeaders, withHeaders, withHeaders, List.foldl_append]

def sized (res : Response) (n : Nat) : Response :=
  { res with contentLength := n, hasLength := true }

@[simp] theorem sized_status (res : Response) (n : Nat) : (sized res n).status = res.status := rfl

@[simp] theorem sized_headLen (res : Response) (n : Nat) : (sized res n).headLen = res.headLen := rfl

@[simp] theorem sized_type (res : Response) (n : Nat) :
    (sized res n).contentTypeBytes = res.contentTypeBytes := rfl

@[simp] theorem sized_hasLength (res : Response) (n : Nat) : (sized res n).hasLength = true := rfl

@[simp] theorem sized_contentLength (res : Response) (n : Nat) :
    (sized res n).contentLength = n := rfl

theorem sized_arena (h : Arena res fs) (n : Nat) : Arena (sized res n) fs := h

theorem sized_headOk (hok : HeadOk res) (n : Nat) : HeadOk (sized res n) := hok.congr rfl rfl rfl

theorem sized_kept {out : Response} (h : Kept res out) (n : Nat) : Kept res (sized out n) :=
  ⟨h.failed, h.headSent, h.chunked, h.bodySent⟩

theorem contentLength_eq (h : res.headSent = false) {n : Nat} (hn : n ≤ sizeMax) :
    (Ioxd.Http.contentLength res (UInt64.ofNat n)).2 = sized res n := by
  have hm : n % 2 ^ 64 = n := Nat.mod_eq_of_lt (by
    unfold sizeMax at hn
    omega)
  unfold Ioxd.Http.contentLength sized
  rw [if_neg (by simp [h]), UInt64.toNat_ofNat', hm]

theorem spanOf_whole (r : Reply) (ctx : Ctx) (h : r.range = .none) (hs : ctx.res.headSent = false)
    (hd : r.data.length ≤ sizeMax) :
    r.spanOf.foldl Ctx.headOp ctx = { ctx with res := sized ctx.res r.data.length } := by
  rw [← contentLength_eq hs hd]
  unfold Reply.spanOf
  rw [h]
  rfl

theorem head_whole (r : Reply) (ctx : Ctx) (hn : r.notModified = false) (hr : r.range = .none)
    (hs : ctx.res.headSent = false) (hd : r.data.length ≤ sizeMax) : r.head ctx =
      { ctx with res := sized (withHeaders (typed r ctx.res) (replyLines r)) r.data.length } := by
  have hs' : (withHeaders (typed r ctx.res) (replyLines r)).headSent = false :=
    (withHeaders_lined (typed r ctx.res) (replyLines r)).kept.headSent.trans hs
  rw [head_eq r ctx hn, spanOf_whole r _ hr hs' hd]

theorem spanOf_part (r : Reply) (ctx : Ctx) {first last : Nat} (h : r.range = .one first last) :
    r.spanOf.foldl Ctx.headOp ctx =
      { ctx with res := partShape ctx.res first last r.data.length } := by
  unfold Reply.spanOf partShape
  rw [h, contentRange, snprintf_rangeText]
  rfl

theorem spanOf_bad (r : Reply) (ctx : Ctx) (h : r.range = .bad) :
    r.spanOf.foldl Ctx.headOp ctx = { ctx with
      res := (header { ctx.res with status := 416 } (str "content-range")
        (str "bytes " ++ str "*" ++ str "/" ++ putUint r.data.length)).2 } := by
  unfold Reply.spanOf
  rw [h]
  rfl

-- ---------------------------------------------------------------------------
-- What a client has of it
-- ---------------------------------------------------------------------------

/-- What a client has of a reply: its head, and the bytes behind it. -/
structure Answer where
  head : Head
  body : List Byte

/-- The answer is of these bytes: all of them, or a part, and then of the part
that it names. -/
structure Answer.Of (a : Answer) (data : List Byte) : Prop where
  whole : a.head.start = startLine 200 → a.body = data
  part : a.head.start = startLine 206 → ∃ first last, first ≤ last ∧ last < data.length ∧
    a.body = (data.drop first).take (last + 1 - first) ∧
    ∀ range ∈ a.head.values (str "content-range"), range = rangeText first last data.length

/-- The reply goes out so, in a response that nothing codes and that no handler
has given another status or a range of its own. -/
inductive Sends (r : Reply) (a : Answer) : Prop
  | intro {conn : Conn} {hreq : Ioxd.Http.Request} {scratch : Scratch} {ctx ctx' : Ctx} :
    Unwritten conn hreq scratch ctx → Ioxd.Http.isHead hreq.method = false →
    ctx.res.status = 200 → Unranged ctx.res →
    ((r.head ctx).run r.body).settleBody.bodyErr = 0 →
    ((r.head ctx).run r.body).settleBody.finish = (true, ctx') →
    ctx'.sock.wire = conn.sock.wire ++ a.head.encode ++ a.body → Sends r a

variable {r : Reply} {a : Answer} {conn : Conn} {hreq : Ioxd.Http.Request} {scratch : Scratch}
  {ctx' : Ctx}

theorem silent_of {base : List Byte} {res : Response} {c : Ctx} (data : List Byte)
    (h : Ctx.Shaped base [] res c) (hok : HeadOk res) (hs : res.status = 304 ∨ res.status = 416)
    (he : c.settleBody.bodyErr = 0) (hr : c.settleBody.finish = (true, ctx'))
    (hw : ctx'.sock.wire = base ++ a.head.encode ++ a.body) : a.Of data := by
  obtain ⟨hd, hheads, hp⟩ := Ctx.finish_heads ((Ctx.Uncoded.shaped h).settle he) hr
  obtain rfl := Ctx.head_unique hw hp
  obtain ⟨fs, ha⟩ := hok.fields
  have hstart := (hheads.reads hok ha).1
  have hne : startLine 304 ≠ startLine 200 ∧ startLine 304 ≠ startLine 206 ∧
      startLine 416 ≠ startLine 200 ∧ startLine 416 ≠ startLine 206 := by decide
  rcases hs with hs | hs
  · rw [hs] at hstart
    exact ⟨fun h => absurd (hstart.symm.trans h) hne.1, fun h => absurd (hstart.symm.trans h) hne.2.1⟩
  · rw [hs] at hstart
    exact ⟨fun h => absurd (hstart.symm.trans h) hne.2.2.1,
      fun h => absurd (hstart.symm.trans h) hne.2.2.2⟩

theorem spoken_of {base : List Byte} {res : Response} {c : Ctx} {data : List Byte}
    (h : Ctx.Shaped base [] res c) (hok : HeadOk res) (ha : Arena res fs) (hb : res.HasBody)
    (hl : res.hasLength = true) (hn : res.contentLength = data.length)
    (he : (c.run [.write data]).settleBody.bodyErr = 0)
    (hr : (c.run [.write data]).settleBody.finish = (true, ctx'))
    (hw : ctx'.sock.wire = base ++ a.head.encode ++ a.body) :
    a.head.start = startLine (Ioxd.Http.wireStatus res.status) ∧ a.body = data ∧
      ∀ name ∉ Ioxd.Http.engineNames,
        a.head.values name = (fs.filter (·.name = name)).map (·.value) := by
  obtain ⟨-, hd, body, hheads, hwire, hf⟩ := Ctx.uncoded_reply h hb (fun op hop => by
    obtain rfl := List.mem_singleton.mp hop
    trivial) he hr
  have hwr : ([] : List Byte) ++ [HandlerOp.write data].flatMap (·.wrote) = data := by
    simp [HandlerOp.wrote]
  rw [hwr] at hf
  obtain ⟨rfl, -⟩ := hf.announced hl hn
  obtain ⟨rfl, hbody⟩ : hd = a.head ∧ body = a.body := by
    rw [hwire, List.append_assoc, List.append_assoc, List.append_cancel_left_eq] at hw
    exact Head.encode_inj hw
  obtain ⟨hstart, hval⟩ := hheads.reads hok ha
  exact ⟨hstart, hbody.symm, hval⟩

/-- The response of `ctx` with header lines of a reply. -/
structure Opened (ctx : Ctx) (fs : List Field) (res : Response) : Prop where
  headOk : HeadOk res
  arena : Arena res fs
  unranged : fs.filter (·.name = str "content-range") = []
  kept : Kept ctx.res res
  status : res.status = 200
  length : res.contentLength ≤ sizeMax
  unsent : res.headSent = false

theorem opened_of (r : Reply) (hu : Unwritten conn hreq scratch ctx)
    (hm : Ioxd.Http.isHead hreq.method = false) (hs : ctx.res.status = 200)
    (hno : Unranged ctx.res)
    (hl : ∀ line ∈ lines, (cstr line.1).map lowerAscii ≠ str "content-range") :
    ∃ fs, Opened ctx fs (withHeaders (typed r ctx.res) lines) := by
  have hgear := (hu.held hm).gear
  obtain ⟨fs, ha⟩ := hgear.head.fields
  have hok : HeadOk (typed r ctx.res) := Ioxd.Http.setType_headOk hgear.head r.typed
  have ha' : Arena (typed r ctx.res) fs := ha
  obtain ⟨fs', hfs', -, hf⟩ := withHeaders_arena hok ha' hl
  have hlined := withHeaders_lined (typed r ctx.res) lines
  exact ⟨fs', withHeaders_headOk hok lines, hfs', hf.trans (unranged_fields ha hno),
    ⟨hlined.kept.failed, hlined.kept.headSent, hlined.kept.chunked, hlined.kept.bodySent⟩,
    hlined.status.trans hs, hlined.contentLength.trans_le hgear.length,
    hlined.kept.headSent.trans hu.unsent⟩

theorem sends_notModified (hu : Unwritten conn hreq scratch ctx)
    (hm : Ioxd.Http.isHead hreq.method = false) (h : Opened ctx fs res)
    (he : (Ctx.run { ctx with res := { res with status := 304 } } []).settleBody.bodyErr = 0)
    (hr : (Ctx.run { ctx with res := { res with status := 304 } } []).settleBody.finish =
      (true, ctx'))
    (hw : ctx'.sock.wire = conn.sock.wire ++ a.head.encode ++ a.body) (data : List Byte) :
    a.Of data := by
  have hok : HeadOk { res with status := 304 } := h.headOk.congr rfl rfl rfl
  have hk : Kept ctx.res { res with status := 304 } :=
    ⟨h.kept.failed, h.kept.headSent, h.kept.chunked, h.kept.bodySent⟩
  exact silent_of data (hu.shaped hm hk hok h.length) hok (.inl rfl) he hr hw

theorem sends_bad (hu : Unwritten conn hreq scratch ctx)
    (hm : Ioxd.Http.isHead hreq.method = false) (h : Opened ctx fs res) {value : List Byte}
    (he : (Ctx.run { ctx with
      res := (header { res with status := 416 } (str "content-range") value).2 }
        []).settleBody.bodyErr = 0)
    (hr : (Ctx.run { ctx with
      res := (header { res with status := 416 } (str "content-range") value).2 }
        []).settleBody.finish = (true, ctx'))
    (hw : ctx'.sock.wire = conn.sock.wire ++ a.head.encode ++ a.body) (data : List Byte) :
    a.Of data := by
  have hok : HeadOk { res with status := 416 } := h.headOk.congr rfl rfl rfl
  have hl := header_lined { res with status := 416 } (str "content-range") value
  have hok' := Ioxd.Http.header_headOk hok (str "content-range") value
  generalize (header { res with status := 416 } (str "content-range") value).2 = out at *
  have hk : Kept ctx.res out :=
    h.kept.trans ⟨hl.kept.failed, hl.kept.headSent, hl.kept.chunked, hl.kept.bodySent⟩
  exact silent_of data (hu.shaped hm hk hok' (hl.contentLength.trans_le h.length)) hok'
    (.inr hl.status) he hr hw

theorem sends_whole (hu : Unwritten conn hreq scratch ctx)
    (hm : Ioxd.Http.isHead hreq.method = false) (h : Opened ctx fs res) {data : List Byte}
    (hd : data.length ≤ sizeMax)
    (he : (Ctx.run { ctx with res := sized res data.length } [.write data]).settleBody.bodyErr = 0)
    (hr : (Ctx.run { ctx with res := sized res data.length } [.write data]).settleBody.finish =
      (true, ctx'))
    (hw : ctx'.sock.wire = conn.sock.wire ++ a.head.encode ++ a.body) : a.Of data := by
  have hok := sized_headOk h.headOk data.length
  have hk := sized_kept h.kept data.length
  have hb : (sized res data.length).HasBody := by
    rw [Response.HasBody, sized_status, h.status]
    decide
  obtain ⟨hstart, hbody, -⟩ :=
    spoken_of (hu.shaped hm hk hok hd) hok (sized_arena h.arena _) hb rfl rfl he hr hw
  refine ⟨fun _ => hbody, fun h206 => ?_⟩
  have hne : startLine (Ioxd.Http.wireStatus 200) ≠ startLine 206 := by decide
  rw [sized_status, h.status] at hstart
  exact absurd (hstart.symm.trans h206) hne

theorem sends_part (hu : Unwritten conn hreq scratch ctx)
    (hm : Ioxd.Http.isHead hreq.method = false) (h : Opened ctx fs res) {data : List Byte}
    (hd : data.length ≤ sizeMax) {first last : Nat} (hle : first ≤ last) (hlt : last < data.length)
    (he : (Ctx.run { ctx with res := partShape res first last data.length }
      [.write ((data.drop first).take (last + 1 - first))]).settleBody.bodyErr = 0)
    (hr : (Ctx.run { ctx with res := partShape res first last data.length }
      [.write ((data.drop first).take (last + 1 - first))]).settleBody.finish = (true, ctx'))
    (hw : ctx'.sock.wire = conn.sock.wire ++ a.head.encode ++ a.body) : a.Of data := by
  have hlen : ((data.drop first).take (last + 1 - first)).length = last + 1 - first := by
    rw [List.length_take, List.length_drop]
    omega
  obtain ⟨hstart, hbody, hval⟩ : a.head.start = startLine 206 ∧
      a.body = (data.drop first).take (last + 1 - first) ∧
      ∀ range ∈ a.head.values (str "content-range"), range = rangeText first last data.length := by
    by_cases hf : Free res (rangeLine first last data.length)
    · have hp := partShape_parted h.headOk h.arena hle hlt hd hf
      generalize partShape res first last data.length = out at hp he hr
      obtain ⟨f, hname, hvalue, har⟩ := hp.line
      have hb : out.HasBody := by
        rw [Response.HasBody, hp.status]
        decide
      have hcl : out.contentLength ≤ sizeMax := by
        rw [hp.contentLength]
        omega
      obtain ⟨hstart, hbody, hval⟩ := spoken_of (hu.shaped hm (h.kept.trans hp.kept) hp.ok hcl)
        hp.ok har hb hp.hasLength (hp.contentLength.trans hlen.symm) he hr hw
      rw [hp.status] at hstart
      refine ⟨hstart, hbody, fun range hrange => ?_⟩
      rw [hval _ (by decide), List.filter_append, h.unranged] at hrange
      simpa [hname, hvalue] using hrange
    · -- no line is taken, and none is there
      have hout := @contentLength_eq { res with status := 206 } h.unsent (last + 1 - first) (by omega)
      rw [partShape_refused hf, show last - first + 1 = last + 1 - first by omega, hout] at he hr
      have hok : HeadOk { res with status := 206 } := h.headOk.congr rfl rfl rfl
      have hk : Kept ctx.res { res with status := 206 } :=
        ⟨h.kept.failed, h.kept.headSent, h.kept.chunked, h.kept.bodySent⟩
      have hb : Response.HasBody { res with status := 206 } :=
        (by decide : Ctx.bodyless (Ioxd.Http.wireStatus 206) = false)
      have ha : Arena { res with status := 206 } fs := h.arena
      generalize ho : ({ res with status := 206 } : Response) = out at hok hk hb ha he hr
      have hstatus : out.status = 206 := by rw [← ho]
      obtain ⟨hstart, hbody, hval⟩ := spoken_of (hu.shaped hm (sized_kept hk _) (sized_headOk hok _)
        (show last + 1 - first ≤ sizeMax by omega)) (sized_headOk hok _) (sized_arena ha _) hb rfl
        hlen.symm he hr hw
      rw [sized_status, hstatus] at hstart
      refine ⟨hstart, hbody, fun range hrange => ?_⟩
      rw [hval _ (by decide), h.unranged] at hrange
      cases hrange
  have hne : startLine 206 ≠ startLine 200 := by decide
  exact ⟨fun h200 => absurd (hstart.symm.trans h200) hne, fun _ =>
    ⟨first, last, hle, hlt, hbody, hval⟩⟩

/-- What is sent of a reply is of the variant it was shaped for. -/
theorem sends_of (hd : r.data.length ≤ sizeMax)
    (hrange : ∀ first last, r.range = .one first last → first ≤ last ∧ last < r.data.length)
    (h : Sends r a) : a.Of r.data := by
  obtain ⟨hu, hm, hstatus, hno, he, hr, hw⟩ := h
  rename_i conn hreq scratch ctx ctx'
  cases hn : r.notModified with
  | true =>
    have hb : r.body = [] := by simp [Reply.body, Reply.sends, hn]
    have hun : ∀ line ∈ openingLines r, (cstr line.1).map lowerAscii ≠ str "content-range" :=
      fun line hl => replyLines_unranged r line (List.mem_append_left _ hl)
    obtain ⟨fs, hopen⟩ := opened_of r hu hm hstatus hno hun
    rw [head_notModified r ctx hn, hb] at he hr
    exact sends_notModified hu hm hopen he hr hw r.data
  | false =>
    obtain ⟨fs, hopen⟩ := opened_of r hu hm hstatus hno (replyLines_unranged r)
    rw [head_eq r ctx hn] at he hr
    generalize withHeaders (typed r ctx.res) (replyLines r) = res at hopen he hr
    cases hrg : r.range with
    | bad =>
      have hb : r.body = [] := by simp [Reply.body, Reply.sends, hrg]
      rw [spanOf_bad r _ hrg, hb] at he hr
      exact sends_bad hu hm hopen he hr hw r.data
    | none =>
      have hb : r.body = [.write r.data] := by
        simp [Reply.body, Reply.sends, Reply.span, hn, hrg]
      rw [spanOf_whole r _ hrg hopen.unsent hd, hb] at he hr
      exact sends_whole hu hm hopen hd he hr hw
    | one first last =>
      obtain ⟨hle, hlt⟩ := hrange first last hrg
      have hb : r.body = [.write ((r.data.drop first).take (last + 1 - first))] := by
        simp [Reply.body, Reply.sends, Reply.span, hn, hrg,
          show last + 1 - first = last - first + 1 by omega]
      rw [spanOf_part r _ hrg, hb] at he hr
      exact sends_part hu hm hopen hd hle hlt he hr hw

-- ---------------------------------------------------------------------------
-- A short head
-- ---------------------------------------------------------------------------

/-- A line that is added is no longer than its texts, and is not the type. -/
theorem header_size (res : Response) {name : List Byte}
    (hn : Ioxd.Http.eqCi (cstr name) (str "content-type") = false) (value : List Byte) :
    (header res name value).2.contentType = res.contentType ∧
      (header res name value).2.headLen ≤ res.headLen + (name.length + value.length + 4) := by
  have hlen : (headerLine (cstr name) (cstr value)).length ≤ name.length + value.length + 4 := by
    have h1 : (str ": ").length = 2 := by decide
    have h2 : Ioxd.Http.crlf.length = 2 := by decide
    have h3 : (cstr name).length ≤ name.length := (List.takeWhile_sublist _).length_le
    have h4 : (cstr value).length ≤ value.length := (List.takeWhile_sublist _).length_le
    simp only [headerLine, List.length_append, List.length_map, h1, h2]
    omega
  unfold header
  simp only [hn, Bool.false_eq_true, if_false]
  split_ifs
  all_goals try exact ⟨rfl, Nat.le_add_right ..⟩
  unfold Response.headRoom
  by_cases hroom : (headerLine (cstr name) (cstr value)).length >
      Ioxd.Http.respHeadCap - res.contentTypeReserved - res.headLen
  · rw [if_pos hroom]
    exact ⟨rfl, Nat.le_add_right ..⟩
  · rw [if_neg hroom]
    exact ⟨rfl, Nat.add_le_add_left hlen _⟩

theorem withHeaders_size (res : Response) {lines : List (List Byte × List Byte)}
    (hn : ∀ line ∈ lines, Ioxd.Http.eqCi (cstr line.1) (str "content-type") = false) :
    (withHeaders res lines).contentType = res.contentType ∧ (withHeaders res lines).headLen ≤
      res.headLen + (lines.map fun line => line.1.length + line.2.length + 4).sum := by
  induction lines generalizing res with
  | nil => exact ⟨rfl, Nat.le_refl _⟩
  | cons line lines ih =>
    obtain ⟨ht, hl⟩ := header_size res (hn line (List.mem_cons_self ..)) line.2
    obtain ⟨ht', hl'⟩ := ih (header res line.1 line.2).2 fun l h => hn l (List.mem_cons_of_mem _ h)
    refine ⟨ht'.trans ht, hl'.trans ?_⟩
    rw [List.map_cons, List.sum_cons]
    omega

theorem putHex_plain (v : Nat) : ∀ c ∈ Ioxd.Http.putHex v, plainByte c = true := by
  intro c hc
  obtain ⟨k, hk, rfl⟩ := Ioxd.Http.putDigits_mem (by omega) hc
  clear hc
  revert k
  decide

theorem etag_plain (stat : Stat) : ∀ c ∈ stat.etag, plainByte c = true := by
  have hlit : ∀ c ∈ str "\"" ++ str "-", plainByte c = true := List.all_eq_true.mp (by decide)
  intro c hc
  simp only [Stat.etag, List.mem_append] at hc
  rcases hc with (((hc | hc) | hc) | hc) | hc
  · exact hlit c (by simp [hc])
  · exact putHex_plain _ c hc
  · exact hlit c (by simp [hc])
  · exact putHex_plain _ c hc
  · exact hlit c (by simp [hc])

theorem length_etag_le (stat : Stat) : stat.etag.length ≤ 35 := by
  have h1 (v : Nat) : (Ioxd.Http.putHex v).length ≤ 16 := length_putDigits_le ..
  have h2 : (str "\"").length = 1 := by decide
  have h3 : (str "-").length = 1 := by decide
  have hs := h1 stat.size
  have hm := h1 ((stat.sec * 1000000000 + stat.nsec) % 2 ^ 64).toNat
  simp only [Stat.etag, List.length_append, h2, h3]
  omega

theorem length_modified_le (stat : Stat) : stat.modified.length ≤ 31 := by
  unfold Stat.modified httpDate snprintf
  dsimp only
  rw [List.length_take]
  omega

-- ---------------------------------------------------------------------------
-- One representation for a tag
-- ---------------------------------------------------------------------------

/-- What the store and the name add to a reply. -/
structure Dress where
  type : List Byte
  typed : type ∈ Ioxd.Http.Static.types
  cacheControl : Option (List Byte)

def Variant.coding : Variant → Option Coding
  | .plain => none
  | .br => some .br
  | .gzip => some .gzip

/-- What `reply` makes of a request for an entry. -/
def Request.reply (req : Request) (e : Entry) (dress : Dress) : Reply where
  type := dress.type
  typed := dress.typed
  etag := e.etag
  modified := e.stat.modified
  cacheControl := dress.cacheControl
  twins := e.twins
  variant := (req.variant e).coding
  data := e.data (req.variant e)
  notModified := req.notModified e.etag e.stat.sec
  range := req.rangeOf e.etag (e.data (req.variant e)).length

theorem reply_body (req : Request) (e : Entry) (dress : Dress) (hh : req.head = false) :
    (req.reply e dress).body = (req.body e).toList.map HandlerOp.write := by
  unfold Reply.body Reply.sends Reply.span Request.body Request.spanOf Request.reply
  dsimp only
  by_cases hn : req.notModified e.etag e.stat.sec = true
  · simp [hn]
  · rw [if_neg hn]
    cases req.rangeOf e.etag (e.data (req.variant e)).length <;> simp [hn, hh]

def Request.Answered (req : Request) (e : Entry) (a : Answer) : Prop :=
  ∃ dress, Sends (req.reply e dress) a

/-- The bytes of an entry are in memory. -/
def Entry.Sized (e : Entry) : Prop := ∀ variant data, e.v variant = some data → data.length ≤ sizeMax

/-- Answers with a tag in common are of the same bytes, whole or in part. -/
def SameUnderTag (e : Entry) (req req' : Request) : Prop :=
  ∀ a a', req.Answered e a → req'.Answered e a' →
    ∀ tag ∈ a.head.values (str "etag"), tag ∈ a'.head.values (str "etag") →
      ∃ data, a.Of data ∧ a'.Of data

/-- A twin, if there is one, holds the bytes of the file itself. -/
def Entry.TwinsSame (e : Entry) : Prop :=
  ∀ variant data, e.v variant = some data → data = e.data .plain

variable {req : Request} {e : Entry}

theorem Entry.Sized.data (h : e.Sized) (variant : Variant) : (e.data variant).length ≤ sizeMax := by
  unfold Entry.data
  cases hv : e.v variant with
  | none => exact Nat.zero_le _
  | some data => exact h variant data hv

theorem answered_of (hsz : e.Sized) (h : req.Answered e a) : a.Of (e.data (req.variant e)) := by
  obtain ⟨dress, h⟩ := h
  refine sends_of (hsz.data _) (fun first last hr => ?_) h
  have ha := rangeOf_answers req e.etag (hsz.data (req.variant e))
  have hr' : req.rangeOf e.etag (e.data (req.variant e)).length = .one first last := hr
  rw [hr'] at ha
  cases ha with
  | one _ hle hlt _ => exact ⟨hle, hlt⟩

theorem pick_spec (req : Request) (e : Entry) :
    (req.pick e = .br → (e.v .br).isSome) ∧ (req.pick e = .gzip → (e.v .gzip).isSome) := by
  unfold Request.pick
  constructor
  · intro h
    by_contra hn
    have h0 : ¬ ((0 : ℚ) > 0) := lt_irrefl 0
    simp only [hn, if_false, h0, false_and] at h
    split_ifs at h
  · intro h
    by_contra hn
    have h0 : ¬ ((0 : ℚ) > 0) := lt_irrefl 0
    simp only [hn, if_false, h0] at h
    split_ifs at h

theorem data_variant (h : e.TwinsSame) :
    e.data (req.variant e) = e.data .plain := by
  obtain ⟨hbr, hgz⟩ := pick_spec req e
  unfold Request.variant
  split
  · cases hv : req.pick e with
    | plain => rfl
    | br =>
      obtain ⟨data, hd⟩ := Option.isSome_iff_exists.mp (hbr hv)
      rw [← h .br data hd]
      simp [Entry.data, hd]
    | gzip =>
      obtain ⟨data, hd⟩ := Option.isSome_iff_exists.mp (hgz hv)
      rw [← h .gzip data hd]
      simp [Entry.data, hd]
  · rfl

def taking (coding : Coding) : Request :=
  { asking "GET" with accepts := fun c => if c = coding then 1 else 0 }

theorem variant_asking (e : Entry) : (asking "GET").variant e = .plain := by
  simp [Request.variant, Request.pick, asking]

theorem variant_taking_br {data : List Byte} (h : e.v .br = some data) :
    (taking .br).variant e = .br := by
  simp [Request.variant, Entry.twins, Request.pick, taking, h]

theorem variant_taking_gzip {data : List Byte} (h : e.v .gzip = some data) :
    (taking .gzip).variant e = .gzip := by
  simp [Request.variant, Entry.twins, Request.pick, taking, h]

def plainReply (req : Request) (e : Entry) : Reply :=
  req.reply e ⟨str "text/css", Ctx.css_typed, none⟩

def plainShape (req : Request) (e : Entry) : Response :=
  withHeaders (typed (plainReply req e) (.init Ctx.zeros)) (replyLines (plainReply req e))

theorem plainShape_headOk (req : Request) (e : Entry) : HeadOk (plainShape req e) :=
  withHeaders_headOk (Ioxd.Http.setType_headOk (Ioxd.Http.init_headOk _) Ctx.css_typed) _

theorem plainShape_lined (req : Request) (e : Entry) :
    Lined (.init Ctx.zeros) (plainShape req e) := by
  have ht : Lined (.init Ctx.zeros) (typed (plainReply req e) (.init Ctx.zeros)) :=
    ⟨rfl, rfl, rfl, rfl, rfl, rfl⟩
  exact ht.trans (withHeaders_lined _ _)

theorem plainShape_etag (req : Request) (e : Entry) : ∃ fs, Arena (plainShape req e) fs ∧
    e.etag ∈ (fs.filter (·.name = str "etag")).map (·.value) := by
  have hok : HeadOk (typed (plainReply req e) (.init Ctx.zeros)) :=
    Ioxd.Http.setType_headOk (Ioxd.Http.init_headOk _) Ctx.css_typed
  have ha : Arena (typed (plainReply req e) (.init Ctx.zeros)) [] := ⟨by simp, rfl⟩
  have hlines : replyLines (plainReply req e) =
      (str "etag", e.etag) :: (replyLines (plainReply req e)).tail := rfl
  have hv : ∀ c ∈ e.etag, plainByte c = true := etag_plain e.stat
  have hlen : (headerLine (str "etag") e.etag).length ≤ 43 := by
    have h1 := length_etag_le e.stat
    have h2 : (str "etag").length = 4 := by decide
    have h3 : (str ": ").length = 2 := by decide
    have h4 : Ioxd.Http.crlf.length = 2 := by decide
    have h5 : e.etag.length = e.stat.etag.length := rfl
    simp only [headerLine, List.length_append, List.length_map, h2, h3, h4]
    omega
  have hfree : Free (typed (plainReply req e) (.init Ctx.zeros)) (headerLine (str "etag") e.etag) :=
    ⟨rfl, (by decide : 0 ≠ Ioxd.Http.maxRespHeaders),
      hlen.trans (by decide : 43 ≤ Ioxd.Http.respHeadCap - 0 - 0)⟩
  have hh := Ioxd.Http.header_headed hok ha (str "etag") e.etag
  have hshape : plainShape req e =
      withHeaders (header (typed (plainReply req e) (.init Ctx.zeros)) (str "etag") e.etag).2
        (replyLines (plainReply req e)).tail := by
    unfold plainShape
    conv_lhs => rw [hlines]
    rfl
  rcases header_spec (typed (plainReply req e) (.init Ctx.zeros))
    (by decide : plainName (str "etag") = true) hv with ⟨-, he⟩ | ⟨hno, -⟩
  · have htrue := congrArg Prod.fst he
    rw [hshape]
    generalize header (typed (plainReply req e) (.init Ctx.zeros)) (str "etag") e.etag = q at hh htrue
    cases hh with
    | refused => cases htrue
    | typed ht => exact absurd ht (by decide)
    | @added res f _ hname hvalue hok' har _ =>
      obtain ⟨fs, ha', hp, -⟩ := withHeaders_arena hok' har fun line hl =>
        replyLines_unranged (plainReply req e) line (List.mem_of_mem_tail hl)
      refine ⟨fs, ha', List.mem_map.mpr ⟨f, List.mem_filter.mpr ⟨hp.subset ?_, ?_⟩, ?_⟩⟩
      · exact List.mem_append_right _ (List.mem_singleton_self f)
      · rw [hname]
        decide
      · rw [hvalue, cstr_plain hv]
  · exact absurd hfree hno

theorem plainShape_size (req : Request) (e : Entry) :
    (plainShape req e).contentTypeBytes = str "text/css" ∧ (plainShape req e).headLen ≤ 160 := by
  obtain ⟨ht, hl⟩ := withHeaders_size (typed (plainReply req e) (.init Ctx.zeros))
    (replyLines_untyped (plainReply req e))
  refine ⟨?_, hl.trans ?_⟩
  · unfold Response.contentTypeBytes plainShape
    rw [ht]
    rfl
  · have h1 : e.etag.length ≤ 35 := length_etag_le e.stat
    have h2 := length_modified_le e.stat
    have h3 : (str "etag").length = 4 := by decide
    have h4 : (str "last-modified").length = 13 := by decide
    have h5 : (str "vary").length = 4 := by decide
    have h6 : (str "accept-encoding").length = 15 := by decide
    have h7 : (str "accept-ranges").length = 13 := by decide
    have h8 : (str "bytes").length = 5 := by decide
    have h9 : (str "content-encoding").length = 16 := by decide
    have h10 (coding : Coding) : coding.name.length ≤ 4 := by cases coding <;> decide
    have h11 : (typed (plainReply req e) (.init Ctx.zeros)).headLen = 0 := rfl
    have h12 : (((req.variant e).coding.toList.map fun coding => (str "content-encoding", coding.name)).map
        fun line => line.1.length + line.2.length + 4).sum ≤ 24 := by
      cases (req.variant e).coding with
      | none => exact Nat.zero_le _
      | some coding =>
        have h := h10 coding
        simp only [Option.toList_some, List.map_cons, List.map_nil, List.sum_cons, List.sum_nil, h9]
        omega
    rw [h11]
    unfold replyLines openingLines plainReply Request.reply
    dsimp only
    rw [List.map_append, List.sum_append, List.map_cons, List.sum_cons]
    cases e.twins <;> simp [h3, h4, h5, h6, h7, h8] at h12 ⊢ <;> omega

def freshCtx : Ctx := .init Ctx.idleConn Ctx.getRequest Ctx.blankScratch

theorem freshCtx_unwritten :
    Unwritten Ctx.idleConn Ctx.getRequest Ctx.blankScratch freshCtx where
  writable := ⟨rfl, rfl, rfl, rfl⟩
  reached := .init
  unsent := rfl
  live := rfl
  onHead := rfl
  sound := by simp [freshCtx, Ctx.init, Ctx.idleConn, Ioxd.Pipe.Socket.Sound]

def wholeShape (req : Request) (e : Entry) : Response :=
  sized (plainShape req e) (e.data (req.variant e)).length

theorem wholeShape_headOk (req : Request) (e : Entry) : HeadOk (wholeShape req e) :=
  sized_headOk (plainShape_headOk req e) _

theorem plainShape_status (req : Request) (e : Entry) : (plainShape req e).status = 200 :=
  (plainShape_lined req e).status

theorem wholeShape_hasBody (req : Request) (e : Entry) : (wholeShape req e).HasBody := by
  rw [Response.HasBody, wholeShape, sized_status, plainShape_status]
  decide

theorem wholeShape_short {hd : Head} (h : (wholeShape req e).Heads hd) :
    hd.encode.length ≤ Ioxd.Http.pipeLead := by
  have hle := h.length_le (wholeShape_headOk req e)
  obtain ⟨ht, hl⟩ := plainShape_size req e
  have h8 : (str "text/css").length = 8 := by decide
  rw [wholeShape, sized_type, sized_headLen, ht, h8] at hle
  exact hle.trans (show 126 + 8 + _ ≤ 512 by omega)

theorem plainReply_shape (req : Request) (e : Entry) :
    withHeaders (typed (plainReply req e) freshCtx.res) (replyLines (plainReply req e)) =
      plainShape req e := by
  unfold plainShape
  rw [show freshCtx.res = .init Ctx.zeros from rfl]

theorem plainReply_head (hsz : e.Sized) (hn : (plainReply req e).notModified = false)
    (hr : (plainReply req e).range = .none) :
    (plainReply req e).head freshCtx = { freshCtx with res := wholeShape req e } := by
  have h := head_whole (plainReply req e) freshCtx hn hr rfl (hsz.data (req.variant e))
  rw [plainReply_shape] at h
  exact h

theorem plainReply_body (hh : req.head = false) (hn : (plainReply req e).notModified = false)
    (hr : (plainReply req e).range = .none) :
    (plainReply req e).body = [.write (e.data (req.variant e))] := by
  have hn' : req.notModified e.etag e.stat.sec = false := hn
  have hr' : req.rangeOf e.etag (e.data (req.variant e)).length = .none := hr
  have hbody : req.body e = some (e.data (req.variant e)) := by
    unfold Request.body Request.spanOf
    simp [hn', hr', hh]
  rw [plainReply, reply_body req e _ hh, hbody]
  rfl

theorem whole_sent {out : Response} {data : List Byte} (hk : Kept freshCtx.res out)
    (hok : HeadOk out) (hb : out.HasBody) (hl : out.hasLength = true)
    (hn : out.contentLength = data.length) (hd : data.length ≤ sizeMax)
    (hshort : ∀ hd, out.Heads hd → hd.encode.length ≤ Ioxd.Http.pipeLead) :
    ∃ (hd : Head) (ctx' : Ctx), out.Heads hd ∧
      (Ctx.run { freshCtx with res := out } [.write data]).settleBody.bodyErr = 0 ∧
      (Ctx.run { freshCtx with res := out } [.write data]).settleBody.finish = (true, ctx') ∧
      ctx'.sock.wire = hd.encode ++ data := by
  have hshaped : Ctx.Shaped [] [] out { freshCtx with res := out } :=
    freshCtx_unwritten.shaped (by decide) hk hok (hn.trans_le hd)
  obtain ⟨-, -, -, hdone, -, herr, -⟩ := (Ctx.write_mute { freshCtx with res := out } data).fields
  -- there is no body of the request to read
  have hrun : (Ctx.run { freshCtx with res := out } [.write data]).settleBody =
      (Ctx.write { freshCtx with res := out } data).2 :=
    Ctx.settleBody_done (hdone.trans (show freshCtx.bodyDone = true by decide))
  have herr' : (Ctx.run { freshCtx with res := out } [.write data]).settleBody.bodyErr = 0 := by
    rw [hrun]
    exact herr
  obtain ⟨ctx', hfin⟩ := Ctx.announced_ends hshaped hb rfl hl hn hshort
  rw [← hrun] at hfin
  obtain ⟨-, hd, body, hheads, hwire, hf⟩ := Ctx.uncoded_reply hshaped hb (fun op hop => by
    obtain rfl := List.mem_singleton.mp hop
    trivial) herr' hfin
  obtain ⟨rfl, -⟩ := hf.announced hl (hn.trans (by simp [HandlerOp.wrote]))
  exact ⟨hd, ctx', hheads, herr', hfin, by simpa [HandlerOp.wrote] using hwire⟩

/-- A request for a whole file is answered with it, under its tag. -/
theorem answered_whole (hsz : e.Sized) (hh : req.head = false)
    (hn : (plainReply req e).notModified = false) (hr : (plainReply req e).range = .none) : ∃ a : Answer,
      req.Answered e a ∧ e.etag ∈ a.head.values (str "etag") ∧ a.head.start = startLine 200 ∧
        a.body = e.data (req.variant e) := by
  obtain ⟨fs, ha, htag⟩ := plainShape_etag req e
  have hk : Kept freshCtx.res (wholeShape req e) := sized_kept (plainShape_lined req e).kept _
  have hl : (wholeShape req e).hasLength = true := sized_hasLength _ _
  have hlen : (wholeShape req e).contentLength = (e.data (req.variant e)).length :=
    sized_contentLength _ _
  obtain ⟨hd, ctx', hheads, herr, hfin, hwire⟩ := whole_sent hk (wholeShape_headOk req e)
    (wholeShape_hasBody req e) hl hlen (hsz.data (req.variant e)) fun hd h => wholeShape_short h
  rw [← plainReply_head hsz hn hr, ← plainReply_body hh hn hr] at herr hfin
  have hsends : Sends (plainReply req e) ⟨hd, e.data (req.variant e)⟩ :=
    .intro freshCtx_unwritten (by decide) rfl rfl herr hfin hwire
  obtain ⟨hstart, hval⟩ := hheads.reads (wholeShape_headOk req e) (sized_arena ha _)
  refine ⟨⟨hd, e.data (req.variant e)⟩, ⟨_, hsends⟩, ?_, ?_, rfl⟩
  · rw [hval _ (by decide)]
    exact htag
  · rw [hstart, wholeShape, sized_status, plainShape_status]
    decide

theorem Answer.Of.eq {data : List Byte} (h : a.Of data) (hs : a.head.start = startLine 200) :
    data = a.body :=
  (h.whole hs).symm

/-- Requests for whole files are of the same bytes where tags say so. -/
theorem SameUnderTag.data {req' : Request} (hsz : e.Sized) (h : SameUnderTag e req req')
    (hh : req.head = false) (hh' : req'.head = false)
    (hn : (plainReply req e).notModified = false) (hr : (plainReply req e).range = .none)
    (hn' : (plainReply req' e).notModified = false) (hr' : (plainReply req' e).range = .none) :
    e.data (req.variant e) = e.data (req'.variant e) := by
  obtain ⟨a, ha, htag, hstart, hbody⟩ := answered_whole hsz hh hn hr
  obtain ⟨a', ha', htag', hstart', hbody'⟩ := answered_whole hsz hh' hn' hr'
  obtain ⟨data, hd, hd'⟩ := h a a' ha ha' e.etag htag htag'
  calc e.data (req.variant e) = a.body := hbody.symm
    _ = data := (hd.eq hstart).symm
    _ = a'.body := hd'.eq hstart'
    _ = e.data (req'.variant e) := hbody'

/-- Every two answers from an entry that carry its tag are of the same bytes
exactly if its twins hold the bytes of the file. -/
theorem tag_names_bytes (e : Entry) (hsz : e.Sized) :
    (∀ req req', SameUnderTag e req req') ↔ e.TwinsSame := by
  constructor
  · intro hall variant data hv
    have htwin (coding : Coding) : e.data ((taking coding).variant e) = e.data .plain := by
      have h := (hall (taking coding) (asking "GET")).data hsz rfl rfl rfl rfl rfl rfl
      rwa [variant_asking] at h
    have hdata : e.data variant = data := by simp [Entry.data, hv]
    cases variant with
    | plain => exact hdata.symm
    | br => rw [← htwin .br, variant_taking_br hv, hdata]
    | gzip => rw [← htwin .gzip, variant_taking_gzip hv, hdata]
  · intro hsame req req' a a' ha ha' tag _ _
    refine ⟨e.data .plain, ?_, ?_⟩
    · rw [← data_variant hsame]
      exact answered_of hsz ha
    · rw [← data_variant hsame]
      exact answered_of hsz ha'

def twinEntry (v : Variant → Option (List Byte)) : Entry where
  chain := none
  newer := none
  older := none
  name := str "a"
  hash := 0
  stat := ⟨0, 0, 2, 0, 0⟩
  v := v
  bytes := 2
  checkedAt := 0
  refs := 0
  dropped := false

theorem tag_names_bytes_alone :
    (twinEntry fun variant => if variant = .plain then some (str "xy") else none).Sized ∧
      ∀ req req', SameUnderTag
        (twinEntry fun variant => if variant = .plain then some (str "xy") else none) req req' := by
  have hsz : (twinEntry fun variant => if variant = .plain then some (str "xy") else none).Sized :=
    fun variant data hv => by cases variant <;> cases hv; decide
  refine ⟨hsz, (tag_names_bytes _ hsz).mpr fun variant data hv => ?_⟩
  cases variant <;> cases hv
  rfl

def twinRun : List Act :=
  [.serve (asking "GET") (str "a") (diskOf 2),
    .loaded 0 (some ⟨str "xy", some (str "z"), none⟩) true]

theorem tag_of_two : ¬ ∀ (cfg : Config) (s : State) (p : Ptr) (e : Entry),
    Run cfg (.init cfg) s → s.table.Holds p → s.table.heap p = some e →
      ∀ req req', SameUnderTag e req req' := by
  intro hall
  obtain ⟨s, h, ho⟩ := @perform_run twinRun _ (fun s => (s.table.newest,
    (s.table.heap 0).map fun e => [e.v .plain, e.v .br, e.v .gzip]))
    (some 0, some [some (str "xy"), some (str "z"), none]) (by decide +kernel)
  simp only [Prod.mk.injEq] at ho
  obtain ⟨hnew, hent⟩ := ho
  obtain ⟨e, he, hv⟩ := Option.map_eq_some_iff.mp hent
  simp only [List.cons.injEq, and_true] at hv
  obtain ⟨l, hl⟩ := run_shows (init_shows tinyConfig) h
  have hsz : e.Sized := fun variant data hd => by
    cases variant with
    | plain => cases hv.1.symm.trans hd; decide
    | br => cases hv.2.1.symm.trans hd; decide
    | gzip => cases hv.2.2.symm.trans hd
  have hsame := hall tinyConfig s 0 e h (hl.rep.holds_newest hnew) he (taking .br) (asking "GET")
  have hdata := hsame.data hsz rfl rfl rfl rfl rfl rfl
  rw [variant_asking, variant_taking_br hv.2.1] at hdata
  simp only [Entry.data, hv, Option.getD_some] at hdata
  exact absurd hdata (by decide)

end Ioxd.Files
