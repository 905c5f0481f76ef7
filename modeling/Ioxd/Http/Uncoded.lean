import Ioxd.Http.Faithful

/-!
# Replies that nothing codes

Without a filter, and with no delegate but one that asks for nothing, a reply
that ends well is one head, made of the response as the header calls have left
it, and behind it what was written, as that head frames it.
-/

namespace Ioxd.Http

open Flat
open Ioxd.Pipe
open Message (Head Field Declares Carries)

/-- The calls that leave the response as it is. -/
def HandlerOp.Writes : HandlerOp → Prop
  | .write _ | .reserve _ _ _ | .flush => True
  | _ => False

theorem HandlerOp.Writes.replies {op : HandlerOp} (h : op.Writes) : op.Replies := by
  cases op with
  | write data => trivial
  | reserve n data hd => trivial
  | flush => trivial
  | head op => exact absurd h id
  | onHead fn => exact absurd h id
  | bodyAll => exact absurd h id
  | bodyReadUntil n => exact absurd h id
  | bodyReadNextChunk cap => exact absurd h id
  | tick => exact absurd h id

variable {res : Response} {hd hd' : Head} {fs : List Field}

/-- A head that `build_head` makes of the response. -/
def Response.Heads (res : Response) (hd : Head) : Prop :=
  ∃ (minorVersion : Nat) (keepAlive close : Bool) (frame : Frame) (len : Nat), len ≤ sizeMax ∧
    buildHead minorVersion keepAlive { res with close := close } headCap frame len = some hd.encode

/-- A status with a body. -/
def Response.HasBody (res : Response) : Prop := Ctx.bodyless (wireStatus res.status) = false

def engineNames : List (List Byte) :=
  [str "content-type", str "content-length", str "transfer-encoding", str "connection"]

theorem Response.Heads.reads (h : res.Heads hd) (hok : HeadOk res) (ha : Arena res fs) :
    hd.start = startLine (wireStatus res.status) ∧ ∀ name ∉ engineNames,
      hd.values name = (fs.filter (·.name = name)).map (·.value) := by
  obtain ⟨minorVersion, keepAlive, close, frame, len, -, hbuild⟩ := h
  have hok' : HeadOk { res with close := close } := hok.congr rfl rfl rfl
  obtain ⟨hd', type, hbuild', hstart, ht, -, hf, -⟩ :=
    buildHead_fields hok' ha minorVersion keepAlive frame len
  obtain rfl := built_inj hbuild hbuild'
  refine ⟨hstart, fun name hn => ?_⟩
  simp only [engineNames, List.mem_cons, List.not_mem_nil, or_false, not_or] at hn
  rw [values_arena name ht hf ⟨Ne.symm hn.1, Ne.symm hn.2.2.2⟩]
  cases frame with
  | length => simp [frameFields, Ne.symm hn.2.1]
  | chunked => simp [frameFields, Ne.symm hn.2.2.1]
  | untilClose => rfl
  | none => rfl

theorem Response.Heads.length_le (h : res.Heads hd) (hok : HeadOk res) :
    hd.encode.length ≤ 126 + res.contentTypeBytes.length + res.headLen := by
  obtain ⟨fs, ha⟩ := hok.fields
  obtain ⟨minorVersion, keepAlive, close, frame, len, -, hbuild⟩ := h
  have hok' : HeadOk { res with close := close } := hok.congr rfl rfl rfl
  obtain ⟨hd', type, hbuild', hstart, hname, hvalue, hf, -⟩ :=
    buildHead_fields hok' (show Arena { res with close := close } fs from ha) minorVersion keepAlive
      frame len
  obtain rfl := built_inj hbuild hbuild'
  have hline : (startLine (wireStatus res.status)).length ≤ 44 := by
    have h1 : (str "HTTP/1.1 ").length = 9 := by decide
    have h2 : (str " ").length = 1 := by decide
    have h3 : (putUint (wireStatus res.status)).length ≤ 3 :=
      putDigits_length (by have := wireStatus_range res.status; omega)
    have h4 := (reason_plain (wireStatus res.status)).2
    simp only [startLine, List.length_append, h1, h2]
    omega
  have hframe : ((frameFields frame len).flatMap (·.line ++ Message.crlf)).length ≤ 38 := by
    cases frame with
    | length =>
      have h1 : (str "content-length").length = 14 := by decide
      have h2 : (putUint len).length ≤ 20 := putDigits_size ..
      simp only [frameFields, List.flatMap_cons, List.flatMap_nil, Field.line, List.length_append,
        List.length_cons, List.length_nil, h1]
      omega
    | chunked =>
      simp only [frameFields]
      decide
    | untilClose => exact Nat.zero_le _
    | none => exact Nat.zero_le _
  have hconn (keep : Bool) :
      ((connectionFields minorVersion keep).flatMap (·.line ++ Message.crlf)).length ≤ 24 := by
    unfold connectionFields
    split
    · decide
    · split <;> decide
  have harena : (fs.flatMap (·.line ++ Message.crlf)).length = res.headLen := by
    rw [← ha.2, length_read]
  have htype : (type.line ++ Message.crlf).length = 16 + res.contentTypeBytes.length := by
    have h1 : (str "content-type").length = 12 := by decide
    have h2 : type.value = res.contentTypeBytes := hvalue
    simp only [Field.line, hname, h2, List.length_append, List.length_cons, List.length_nil, h1]
    omega
  have hconn := hconn (keepAlive && !close)
  have hl (fs : List Field) : List.flatMap (fun x => x ++ Message.crlf) (fs.map Field.line) =
      fs.flatMap (·.line ++ Message.crlf) := by rw [List.flatMap_map]
  have hs : hd.start.length ≤ 44 := hstart ▸ hline
  simp only [Head.encode, Message.encodeLines, Head.lines, hf, List.flatMap_cons, hl,
    List.cons_append, List.flatMap_append, List.length_append, htype, harena] at hframe hconn ⊢
  simp only [List.length_cons, List.length_nil]
  omega

/-- The body behind such a head, when `W` was written. -/
inductive Frames (res : Response) (W : List Byte) (hd : Head) : List Byte → Prop
  | whole : Declares hd (.length W.length) → Frames res W hd W
  | length : res.hasLength = true → Declares hd (.length res.contentLength) →
      Frames res W hd (W.take res.contentLength)
  | chunked {body : List Byte} : res.hasLength = false → Declares hd .chunked →
      Carries .chunked body W → Frames res W hd body
  | untilClose : res.hasLength = false → Declares hd .untilClose → Frames res W hd W

theorem Frames.announced {W body : List Byte} (h : Frames res W hd body)
    (hl : res.hasLength = true) (hn : res.contentLength = W.length) :
    body = W ∧ Declares hd (.length W.length) := by
  cases h with
  | whole hd => exact ⟨rfl, hd⟩
  | length _ hd => exact ⟨by rw [hn, List.take_length], hn ▸ hd⟩
  | chunked hno => simp [hl] at hno
  | untilClose hno => simp [hl] at hno

namespace Ctx

variable {ctx ctx' c c' : Ctx} {base W : List Byte} {kind : FlushKind}

def Idle (ctx : Ctx) : Prop := ∀ fn, ctx.onHead = some fn → ∀ buffered whole, fn buffered whole = []

def alone (ctx : Ctx) : Ctx := { ctx with onHead := none }

/-- Nothing is on the wire yet of the response `res`; `W` is in the slab. -/
structure Shaped (base W : List Byte) (res : Response) (c : Ctx) : Prop where
  flowing : Flowing base W c.alone
  unsent : c.res.headSent = false
  res : c.res = { res with close := c.res.close }
  idle : c.Idle

/-- The head of `res` is out. -/
structure Sent (base W : List Byte) (res : Response) (c : Ctx) : Prop where
  flowing : Flowing base W c
  sent : c.res.headSent = true
  hasLength : c.res.hasLength = res.hasLength
  contentLength : c.res.contentLength = res.contentLength
  head : ∃ hd, res.Heads hd ∧ base ++ hd.encode <+: c.sock.wire

inductive Uncoded (base W : List Byte) (res : Response) (c : Ctx) : Prop
  | shaped : Shaped base W res c → Uncoded base W res c
  | sent : Sent base W res c → Uncoded base W res c
  | lost : c.res.failed = true → Uncoded base W res c

theorem Held.shaped (h : Held (fun _ => False) base W c) (hs : c.sock.Sound) (hi : c.Idle) :
    Shaped base W c.res c := by
  refine ⟨⟨⟨?_, rfl, h.gear.fit, h.gear.cap, h.gear.head, h.gear.length⟩, fun _ => h.gear.asked,
    h.gear.live, h.gear.able, hs, [], [], ?_, .held h.unsent h.whole h.zero, h.slab⟩, h.unsent, rfl,
    hi⟩
  · show c.filter = none
    cases hf : c.filter with
    | none => rfl
    | some F => exact (h.filter F hf).elim
  · rw [List.append_nil]
    exact h.wire

theorem Shaped.still (h : Shaped base W res c) : Still base c.alone := by
  obtain ⟨t, data, hwire, hst, -⟩ := h.flowing.stage
  have hs : c.alone.res.headSent = false := h.unsent
  have hready := h.flowing.ready
  obtain ⟨rfl, hz⟩ : t = [] ∧ c.alone.res.bodySent = 0 := by
    cases hst with
    | held _ _ hb => exact ⟨rfl, hb⟩
    | length hs' => simp [hs] at hs'
    | chunked hs' => simp [hs] at hs'
    | untilClose hs' => simp [hs] at hs'
  rw [List.append_nil] at hwire
  exact ⟨hs, hready.fit, hready.cap, h.flowing.able, hready.head, hready.length, hwire, hz⟩

-- ---------------------------------------------------------------------------
-- A flush
-- ---------------------------------------------------------------------------

theorem callOnHead_idle (hi : c.Idle) (hs : c.res.headSent = false) (ha : c.headOnly = false)
    (final : Bool) : c.callOnHead final = c.alone := by
  unfold callOnHead
  cases hf : c.onHead with
  | none =>
    show c = c.alone
    unfold alone
    rw [← hf]
  | some fn =>
    dsimp only
    rw [if_neg (by simp [hs, ha]), hi fn hf, List.foldl_nil]
    rfl

/-- A delegate that asks for nothing makes no difference to the flush. -/
theorem Shaped.flushWith_eq (h : Shaped base W res c) (kind : FlushKind) (extra : List Byte) :
    c.flushWith kind extra = c.alone.flushHead kind extra := by
  have hl : c.res.failed = false := h.flowing.live
  rw [Ctx.flushWith_eq hl, callOnHead_idle h.idle h.unsent (h.flowing.bodied h.unsent)]

theorem Shaped.flushWith_alone (h : Shaped base W res c) (kind : FlushKind) (extra : List Byte) :
    c.flushWith kind extra = c.alone.flushWith kind extra := by
  have hl : c.alone.res.failed = false := h.flowing.live
  rw [h.flushWith_eq, Ctx.flushWith_eq hl]
  rfl

theorem Shaped.head (h : Shaped base W res c) {extra : List Byte}
    (hr : c.flushWith kind extra = (true, c')) : c'.filter = none ∧
      ∃ hd, res.Heads hd ∧ base ++ hd.encode <+: c'.sock.wire := by
  rw [h.flushWith_eq] at hr
  have hn : (c.alone.filter.isSome && !c.alone.headOnly) = false := by
    rw [h.flowing.ready.filter]
    rfl
  obtain ⟨hd, hb⟩ := flushHead_built_bare h.still hn hr
  obtain ⟨frame, len, hlen, hbuild⟩ := hb.head
  have hres : { c.alone.res with close := c'.res.close } = { res with close := c'.res.close } := by
    show { c.res with close := c'.res.close } = _
    rw [h.res]
  have hfil := hb.filter
  rw [h.flowing.ready.filter] at hfil
  rw [hres] at hbuild
  exact ⟨by simpa using hfil, hd, ⟨_, _, _, frame, len, hlen, hbuild⟩, hb.wire⟩

/-- A flush that is not the last. Bytes behind the slab are for a reply without a
delegate. -/
theorem flushWith_uncoded (h : Uncoded base W res c) (hb : res.HasBody) (hk : kind ≠ .final)
    {extra : List Byte} (hx : c.rawFramed = false → extra = []) :
    Uncoded base (W ++ extra) res (c.flushWith kind extra).2 ∧
      ((c.flushWith kind extra).1 = true → (c.flushWith kind extra).2.out.room = pipeCap) := by
  have hroom {c : Ctx} (hf : Flowing base (W ++ extra) c) (h0 : c.out.len = 0) :
      c.out.room = pipeCap := by
    unfold Pipewriter.room
    rw [hf.ready.cap, h0]
    rfl
  cases hok : (c.flushWith kind extra).1 with
  | false => exact ⟨.lost (flushWith_failed hok), fun hf => by cases hf⟩
  | true =>
    have hr : c.flushWith kind extra = (true, (c.flushWith kind extra).2) := Prod.ext hok rfl
    cases h with
    | lost h => simp [flushWith_stuck h] at hok
    | shaped h =>
      obtain ⟨-, hhead⟩ := h.head hr
      have hg : Going base W c.alone := h.flowing.going fun _ => by
        show Response.HasBody c.res
        rw [h.res]
        exact hb
      have hx' : c.alone.rawFramed = false → extra = [] := fun hraw => hx (by
        unfold rawFramed at hraw ⊢
        split
        · rfl
        · rename_i hn
          have ho : c.onHead = none := by simpa using (not_or.mp hn).1
          have he : c.alone = c := by rw [alone, ← ho]
          rw [he, if_neg hn] at hraw
          exact hraw)
      have hp := flushWith_pushed hg hk hx'
      have hlen : c.alone.res.hasLength = res.hasLength ∧
          c.alone.res.contentLength = res.contentLength := by
        show c.res.hasLength = _ ∧ c.res.contentLength = _
        rw [h.res]
        exact ⟨rfl, rfl⟩
      rw [← h.flushWith_alone, hr] at hp
      cases hp with
      | sent hg' h0 hs hl hc =>
        exact ⟨.sent ⟨hg'.flowing, hs, hl.trans hlen.1, hc.trans hlen.2, hhead⟩,
          fun _ => hroom hg'.flowing h0⟩
    | sent h =>
      have hg : Going base W c := h.flowing.going fun hs => by simp [h.sent] at hs
      have hp := flushWith_pushed hg hk hx
      have ho := flushWith_onward h.sent kind extra
      rw [hr] at hp
      obtain ⟨hd, hh, hw⟩ := h.head
      cases hp with
      | sent hg' h0 hs hl hc =>
        exact ⟨.sent ⟨hg'.flowing, hs, hl.trans h.hasLength, hc.trans h.contentLength, hd, hh,
          hw.trans ho.wire⟩, fun _ => hroom hg'.flowing h0⟩

theorem flush_uncoded (h : Uncoded base W res c) (hb : res.HasBody) (hk : kind ≠ .final) :
    (∃ c', c.flush kind = (true, c') ∧ Uncoded base W res c' ∧ c'.out.room = pipeCap) ∨
    ∃ c', c.flush kind = (false, c') ∧ c'.res.failed = true := by
  obtain ⟨hf, hr⟩ := @flushWith_uncoded _ _ _ _ _ h hb hk [] fun _ => rfl
  rw [List.append_nil] at hf
  unfold flush
  cases hok : (c.flushWith kind []).1 with
  | false => exact .inr ⟨_, Prod.ext hok rfl, flushWith_failed hok⟩
  | true => exact .inl ⟨_, Prod.ext hok rfl, hf, hr hok⟩

-- ---------------------------------------------------------------------------
-- The calls that write
-- ---------------------------------------------------------------------------

theorem Uncoded.append (h : Uncoded base W res c) {more : List Byte}
    (hm : more.length ≤ c.out.room) : Uncoded base (W ++ more) res
      { c with out := (c.out.copyTo c.out.at' more).advance more.length } := by
  cases h with
  | lost h => exact .lost h
  | shaped h => exact .shaped ⟨h.flowing.append hm, h.unsent, h.res, h.idle⟩
  | sent h => exact .sent ⟨h.flowing.append hm, h.sent, h.hasLength, h.contentLength, h.head⟩

theorem Uncoded.cap (h : Uncoded base W res c) (hl : c.res.failed = false) :
    c.out.cap = pipeCap := by
  cases h with
  | lost h => simp [hl] at h
  | shaped h => exact h.flowing.ready.cap
  | sent h => exact h.flowing.ready.cap

theorem writeLoop_uncoded {turns : Nat} {src : List Byte} (h : Uncoded base W res c)
    (hb : res.HasBody) (ht : 2 * src.length + (if c.out.room = 0 then 1 else 0) ≤ turns) :
    Uncoded base (W ++ src) res (c.writeLoop turns src).2 := by
  induction turns generalizing c W src with
  | zero =>
    obtain rfl : src = [] := List.length_eq_zero_iff.mp (by omega)
    rw [List.append_nil]
    exact h
  | succ turns ih =>
    unfold writeLoop
    split
    · rename_i he
      rw [he, List.append_nil]
      exact h
    rename_i hne
    have hpos : 0 < src.length := List.length_pos_iff.mpr hne
    split
    · rename_i hroom
      rw [if_pos hroom] at ht
      rcases flush_uncoded h hb (by decide : FlushKind.full ≠ .final) with
        ⟨c₁, he, hf, hr⟩ | ⟨c₁, he, hf⟩
      · rw [he]
        refine ih hf ?_
        rw [hr, if_neg (by decide)]
        omega
      · rw [he]
        exact .lost hf
    · rename_i hroom
      rw [if_neg hroom] at ht
      have hn : (src.take (min src.length c.out.room)).length = min src.length c.out.room := by
        rw [List.length_take]
        omega
      have hg := h.append (show (src.take (min src.length c.out.room)).length ≤ c.out.room by
        omega)
      rw [hn] at hg
      have hd : (src.drop (min src.length c.out.room)).length =
          src.length - min src.length c.out.room := List.length_drop
      have hi := @ih _ _ (src.drop (min src.length c.out.room)) hg (by
        rw [hd]
        split <;> omega)
      rw [List.append_assoc, List.take_append_drop] at hi
      exact hi

theorem write_uncoded (h : Uncoded base W res c) (hb : res.HasBody) (data : List Byte) :
    Uncoded base (W ++ data) res (c.write data).2 := by
  unfold write
  split
  · rename_i hf
    exact .lost hf
  split
  · rename_i hraw
    exact (flushWith_uncoded h hb (by decide) fun hn => by simp [hraw.2] at hn).1
  · refine writeLoop_uncoded h hb ?_
    split <;> omega

theorem reserveOp_uncoded (h : Uncoded base W res c) (hb : res.HasBody) {n : Nat}
    {data : List Byte} (hd : data.length ≤ n) :
    Uncoded base (W ++ (HandlerOp.reserve n data hd).wrote) res (c.reserveOp n data) := by
  unfold reserveOp reserve HandlerOp.wrote
  by_cases hl : c.res.failed = true
  · simp only [if_pos (Or.inl hl)]
    exact .lost hl
  have hcap := h.cap (Bool.not_eq_true _ ▸ hl)
  by_cases hn : n > c.out.cap
  · simp only [if_pos (Or.inr hn), if_neg (Nat.not_le.mpr (hcap ▸ hn)), List.append_nil]
    exact h
  simp only [if_neg (not_or.mpr ⟨hl, hn⟩), if_pos (hcap ▸ Nat.not_lt.mp hn : n ≤ pipeCap)]
  by_cases hroom : n > c.out.room
  · simp only [if_pos hroom]
    rcases flush_uncoded h hb (by decide : FlushKind.full ≠ .final) with
      ⟨c₁, he, hf, hr⟩ | ⟨c₁, he, hf⟩
    · simp only [he]
      exact hf.append (by
        rw [hr]
        omega)
    · simp only [he]
      exact .lost hf
  · simp only [if_neg hroom]
    exact h.append (by omega)

theorem step_uncoded (h : Uncoded base W res c) (hb : res.HasBody) {op : HandlerOp}
    (hw : op.Writes) : Uncoded base (W ++ op.wrote) res (c.step op) := by
  cases op with
  | write data => exact write_uncoded h hb data
  | reserve n data hd => exact reserveOp_uncoded h hb hd
  | flush =>
    show Uncoded base (W ++ []) res _
    rw [List.append_nil]
    rcases flush_uncoded h hb (by decide : FlushKind.asked ≠ .final) with
      ⟨c₁, he, hf, -⟩ | ⟨c₁, he, hf⟩ <;> simp only [step, he]
    · exact hf
    · exact .lost hf
  | head op => exact absurd hw id
  | onHead fn => exact absurd hw id
  | bodyAll => exact absurd hw id
  | bodyReadUntil n => exact absurd hw id
  | bodyReadNextChunk cap => exact absurd hw id
  | tick => exact absurd hw id

theorem run_uncoded {ops : List HandlerOp} (h : Uncoded base W res c) (hb : res.HasBody)
    (hw : ∀ op ∈ ops, op.Writes) :
    Uncoded base (W ++ ops.flatMap (·.wrote)) res (c.run ops) := by
  induction ops generalizing c W with
  | nil =>
    rw [List.flatMap_nil, List.append_nil]
    exact h
  | cons op ops ih =>
    have hi := ih (step_uncoded h hb (hw op (List.mem_cons_self ..)))
      fun o ho => hw o (List.mem_cons_of_mem _ ho)
    rwa [List.append_assoc] at hi

-- ---------------------------------------------------------------------------
-- The end
-- ---------------------------------------------------------------------------

theorem Uncoded.settle (h : Uncoded base W res c) (he : c.settleBody.bodyErr = 0) :
    Uncoded base W res c.settleBody := by
  have hd := settleBody_deaf c
  have heq := hd.eq
  have hstatus := (hd.err he).2
  have hclose := hd.close
  generalize c.settleBody = c₁ at *
  rw [heq, hstatus]
  cases h with
  | lost h => exact .lost h
  | shaped h =>
    refine .shaped ⟨h.flowing.setBody _ _ _ _ _ hclose, h.unsent, ?_, h.idle⟩
    conv_lhs => rw [h.res]
  | sent h =>
    exact .sent ⟨h.flowing.setBody _ _ _ _ _ hclose, h.sent, h.hasLength, h.contentLength, h.head⟩

theorem head_unique {wire t : List Byte} (h : wire = base ++ hd.encode ++ t)
    (h' : base ++ hd'.encode <+: wire) : hd' = hd := by
  obtain ⟨t', ht⟩ := h'
  rw [h, List.append_assoc, List.append_assoc, List.append_cancel_left_eq] at ht
  exact (Head.encode_inj ht).1

theorem Shaped.finish_head (h : Shaped base W res c) (hr : c.finish = (true, c')) :
    ∃ hd, res.Heads hd ∧ base ++ hd.encode <+: c'.sock.wire := by
  have hf : c.res.failed = false := h.flowing.live
  rw [finish_flushes hf (.inl h.unsent), flush] at hr
  rcases hfl : c.flushWith .final [] with ⟨_ | _, c₁⟩ <;> rw [hfl] at hr
  · cases hr
  · obtain ⟨-, rfl⟩ := Prod.mk.inj hr
    exact (h.head hfl).2

theorem finish_heads (h : Uncoded base W res c) (hr : c.finish = (true, c')) :
    ∃ hd, res.Heads hd ∧ base ++ hd.encode <+: c'.sock.wire := by
  cases h with
  | lost h =>
    unfold finish at hr
    rw [if_pos h] at hr
    cases hr
  | shaped h => exact h.finish_head hr
  | sent h =>
    obtain ⟨hd, hh, hw⟩ := h.head
    have ho := finish_onward h.sent
    rw [hr] at ho
    exact ⟨hd, hh, hw.trans ho.wire⟩

theorem finish_uncoded (h : Uncoded base W res c) (hb : res.HasBody)
    (hr : c.finish = (true, c')) : c'.filter = none ∧ ∃ (hd : Head) (body : List Byte),
      res.Heads hd ∧ c'.sock.wire = base ++ hd.encode ++ body ∧ Frames res W hd body := by
  cases h with
  | lost h =>
    unfold finish at hr
    rw [if_pos h] at hr
    cases hr
  | shaped h =>
    have hf : c.res.failed = false := h.flowing.live
    have ha : c.alone.AdmitsBody := by
      show Response.HasBody c.res
      rw [h.res]
      exact hb
    obtain ⟨hd, c₁, he, hdec, hwire⟩ := flush_whole h.flowing h.unsent ha
    have he' : c.flushWith .final [] = (true, c₁) := (h.flushWith_alone .final []).trans he
    obtain ⟨hfil, hd', hh, hw⟩ := h.head he'
    obtain rfl := head_unique hwire hw
    rw [finish_flushes hf (.inl h.unsent), flush, he'] at hr
    obtain ⟨-, rfl⟩ := Prod.mk.inj hr
    exact ⟨hfil, hd', W, hh, hwire, .whole hdec⟩
  | sent h =>
    have ho := finish_onward h.sent
    have hdel := finish_delivered h.flowing (fun hs => by simp [h.sent] at hs) true
    obtain ⟨hd', hh, hw⟩ := h.head
    rw [hr] at ho hdel
    have hw' := hw.trans ho.wire
    refine ⟨?_, ?_⟩
    · have hn := ho.filter
      rw [h.flowing.ready.filter] at hn
      simpa using hn
    · dsimp only at hdel
      generalize (true && true && !c'.res.close) = goesOn at hdel
      cases hdel with
      | whole hs => simp [h.sent] at hs
      | length _ hl hdec hwire =>
        obtain rfl := head_unique hwire hw'
        rw [h.contentLength] at hdec hwire
        exact ⟨_, _, hh, hwire, .length (h.hasLength ▸ hl) hdec⟩
      | chunked _ hl hdec hbody hwire =>
        obtain rfl := head_unique hwire hw'
        exact ⟨_, _, hh, hwire, .chunked (h.hasLength ▸ hl) hdec hbody⟩
      | untilClose _ hl hdec hwire =>
        obtain rfl := head_unique hwire hw'
        exact ⟨_, _, hh, hwire, .untilClose (h.hasLength ▸ hl) hdec⟩

/-- A reply that nothing codes: the head is that of the response, and the body
what was written. -/
theorem uncoded_reply (h : Shaped base W res c) (hb : res.HasBody) {ops : List HandlerOp}
    (hw : ∀ op ∈ ops, op.Writes) (he : (c.run ops).settleBody.bodyErr = 0)
    (hr : (c.run ops).settleBody.finish = (true, c')) : c'.filter = none ∧
      ∃ (hd : Head) (body : List Byte), res.Heads hd ∧
        c'.sock.wire = base ++ hd.encode ++ body ∧
        Frames res (W ++ ops.flatMap (·.wrote)) hd body :=
  finish_uncoded ((run_uncoded (.shaped h) hb hw).settle he) hb hr

theorem Shaped.writeLoop_copies (h : Shaped base W res c) {data : List Byte}
    (hroom : data.length ≤ c.out.room) : ∃ c', c.writeLoop (2 * data.length + 1) data = (true, c') ∧
      Shaped base (W ++ data) res c' := by
  by_cases hne : data = []
  · subst hne
    rw [List.append_nil]
    exact ⟨c, rfl, h⟩
  have hpos : 0 < data.length := List.length_pos_iff.mpr hne
  have hmin : min data.length c.out.room = data.length := Nat.min_eq_left hroom
  refine ⟨{ c with out := (c.out.copyTo c.out.at' data).advance data.length }, ?_,
    ⟨h.flowing.append hroom, h.unsent, h.res, h.idle⟩⟩
  rw [show 2 * data.length + 1 = (2 * data.length - 1) + 1 + 1 by omega, writeLoop, if_neg hne,
    if_neg (by omega)]
  dsimp only
  rw [hmin, List.take_length, List.drop_length, writeLoop, if_pos rfl]

/-- A reply that announces what its one call writes ends well, unless its head is
too long to go out with the first bytes of the body. -/
theorem announced_ends (h : Shaped base [] res c) (hb : res.HasBody) (ho : c.onHead = none)
    {data : List Byte} (hl : res.hasLength = true) (hn : res.contentLength = data.length)
    (hshort : ∀ hd, res.Heads hd → hd.encode.length ≤ pipeLead) :
    ∃ c', (c.write data).2.finish = (true, c') := by
  have he : c.alone = c := by rw [alone, ← ho]
  have hflow : Flowing base [] c := he ▸ h.flowing
  have hlen : c.res.hasLength = true ∧ c.res.contentLength = data.length := by
    rw [h.res]
    exact ⟨hl, hn⟩
  have hlive : ¬ c.res.failed = true := by simp [hflow.live]
  have ha : c.AdmitsBody := by
    show Response.HasBody c.res
    rw [h.res]
    exact hb
  unfold write
  rw [if_neg hlive]
  split
  · -- the bytes go out behind the head, past the slab
    rename_i hraw
    have hp := flushWith_pushed (hflow.going fun _ => ha) (by decide : FlushKind.full ≠ .final)
      (fun hx => by simp [hraw.2] at hx : c.rawFramed = false → data = [])
    generalize c.flushWith .full data = r at hp
    cases hp with
    | @sent c' hg h0 hs hl' _ =>
      obtain ⟨t, d, -, hst, -⟩ := hg.stage
      have hc := (hst.sent (hl'.trans hlen.1)).2 hs
      exact ⟨_, finish_idle hg.ready hg.live hs h0 hc.2.1⟩
    | @full c' hf _ hc =>
      obtain ⟨-, -, hlt, -⟩ := hf.wire
      rw [hc, hlen.2, List.nil_append] at hlt
      exact absurd hlt (Nat.lt_irrefl _)
    | wrapped hw =>
      obtain ⟨hd, hstart, -⟩ := startHead_spec hflow.ready.head (hflow.ready.headLength_le false)
      have hfst := startHead_fst c false false
      rw [hstart] at hfst
      have hheads : res.Heads hd := by
        have hle := hflow.ready.headLength_le false
        rw [h.res] at hfst
        exact ⟨_, _, _, _, _, hle, hfst.symm⟩
      have hlong := hw.2.1 hd.encode (by rw [hstart]; rfl) h.unsent
      exact absurd (hshort hd hheads) (Nat.not_le.mpr hlong)
  · rename_i hraw
    have hr : c.rawFramed = true := by
      simp [rawFramed, ho, hflow.ready.filter, h.unsent, hlen.1]
    have hroom : data.length ≤ c.out.room := by
      by_contra hgt
      exact hraw ⟨Nat.not_le.mp hgt, hr⟩
    obtain ⟨c', hw, hs⟩ := h.writeLoop_copies hroom
    rw [hw]
    have ha' : c'.alone.AdmitsBody := by
      show Response.HasBody c'.res
      rw [hs.res]
      exact hb
    obtain ⟨hd, c₁, he', -⟩ := flush_whole hs.flowing hs.unsent ha'
    have hfl : c'.flush .final = (true, c₁) := (hs.flushWith_alone .final []).trans he'
    have hlive' : c'.res.failed = false := hs.flowing.live
    rw [finish_flushes hlive' (.inl hs.unsent), hfl]
    exact ⟨_, rfl⟩

end Ctx

end Ioxd.Http
