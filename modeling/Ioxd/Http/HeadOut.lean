import Ioxd.Http.Filtered
import Ioxd.Http.WireLaws

/-!
# The head on its way out

The flush that sends the head: which head it is, and what it leaves of the
flag that closes the connection. Behind the head no send touches that flag.
-/

namespace Ioxd.Http

open Flat
open Ioxd.Pipe
open Message (Head)

theorem built_inj {bytes : Option (List Byte)} {hd hd' : Head} (h : bytes = some hd.encode)
    (h' : bytes = some hd'.encode) : hd = hd' := by
  have he : hd.encode ++ [] = hd'.encode ++ [] := by
    rw [Option.some.inj (h.symm.trans h')]
  exact (Head.encode_inj he).1

namespace Ctx

variable {ctx ctx' : Ctx} {base W : List Byte} {P : Filter → Prop} {kind : FlushKind}
  {op : FilterOp} {head' : Option (List Byte)}

theorem Held.append {P : Filter → Prop} (h : Held P base W ctx) {more : List Byte}
    (hm : more.length ≤ ctx.out.room) : Held P base (W ++ more)
      { ctx with out := (ctx.out.copyTo ctx.out.at' more).advance more.length } := by
  obtain ⟨hg, hs⟩ := h.gear.append hm
  exact ⟨hg, h.unsent, h.whole, h.zero, h.wire, h.log, by rw [hs, h.slab], h.filter, h.onHead⟩

-- ---------------------------------------------------------------------------
-- The head on the wire
-- ---------------------------------------------------------------------------

theorem sendFrame_head {final coding : Bool} {head extra : List Byte} (hf : Fit (ctx.sw coding))
    (ha : (ctx.sw coding).failed = false) (hs : head.length < 2 ^ 31)
    (hr : ctx.sendFrame final coding head extra = (true, ctx')) :
    ctx.sock.wire ++ head <+: ctx'.sock.wire := by
  have ho := sendFrame_outcome hf ha hs final extra
  rw [hr] at ho
  cases ho with
  | @sent pw sock _ _ _ _ hd =>
    have hw : (ctx.flushed coding extra pw sock).sock.wire = sock.wire := rfl
    rw [hw, hd.wire, Ctx.frame, List.append_assoc head, ← List.append_assoc]
    exact List.prefix_append ..

theorem sendBodyless_head {head : List Byte} (ha : ctx.out.failed = false)
    (hs : head.length < 2 ^ 31) (hr : ctx.sendBodyless head = (true, ctx')) :
    ctx.sock.wire ++ head <+: ctx'.sock.wire := by
  have ho := @Pipewriter.through_outcome ctx.out.reset ctx.sock head ha hs
  unfold sendBodyless at hr
  dsimp only at hr
  split at hr
  · rename_i hh
    obtain ⟨-, rfl⟩ := Prod.mk.inj hr
    exact ⟨[], by simp [hh]⟩
  · generalize ctx.out.reset.through ctx.sock head = r at ho hr
    cases ho with
    | sent hd =>
      obtain ⟨-, rfl⟩ := Prod.mk.inj hr
      exact hd.wire ▸ List.prefix_rfl
    | cut => simp at hr

theorem sendCoded_head {out head : List Byte} (hc : Coding base ctx (some head) out)
    (hok : (ctx.sendCoded head).1 = true) :
    ctx.sock.wire ++ head <+: (ctx.sendCoded head).2.sock.wire := by
  have ho := emit_outcome hc.fit hc.able hc.short ctx.sock ctx.res.chunked false []
  unfold sendCoded at hok ⊢
  simp only [Option.getD_some] at ho
  generalize emit ctx.coded ctx.sock ctx.res.chunked false head [] = r at ho hok
  cases ho with
  | @sent pw sock _ _ _ hd =>
    show ctx.sock.wire ++ head <+: sock.wire
    rw [hd.wire, List.append_assoc head, ← List.append_assoc]
    exact List.prefix_append ..
  | wrapped => simp at hok
  | cut => simp at hok

/-- The head goes out in front of the first coded frame, or is still held. -/
theorem encodeLoop_head {script : List FilterOut} {out head input : List Byte}
    (hc : Coding base ctx (some head) out)
    (hr : encodeLoop script ctx op (some head) input = (true, ctx', head')) :
    ctx.sock.wire ++ head <+: ctx'.sock.wire ++ head'.getD [] := by
  induction script generalizing ctx head out input with
  | nil => simp [encodeLoop] at hr
  | cons r script ih =>
    simp only [encodeLoop] at hr
    split at hr
    · simp at hr
    · rename_i hg
      simp only [not_or, not_lt] at hg
      have hc2 := hc.append hg.2.2 (some script)
        (ctx.filterLog ++ [FilterIn.mk input ctx.coded.room op])
      split at hr
      · simp only [Prod.mk.injEq, true_and] at hr
        obtain ⟨rfl, rfl⟩ := hr
        exact List.prefix_rfl
      · split at hr
        · split at hr
          · simp at hr
          · rename_i hok
            have hh := sendCoded_head hc2 (not_not.mp hok)
            have hc3 := (sendCoded_coding hc2 (not_not.mp hok)).1
            have hi := ih hc3 hr
            rw [List.append_nil] at hi
            exact hh.trans hi
        · split at hr
          · simp at hr
          · have hi := ih hc2 hr
            exact hi

-- ---------------------------------------------------------------------------
-- The flag
-- ---------------------------------------------------------------------------

theorem sendFrame_close (ctx : Ctx) (final coding : Bool) (head extra : List Byte) :
    (ctx.sendFrame final coding head extra).2.res.close = ctx.res.close := by
  have hc : (ctx.clip coding extra).1.res.close = ctx.res.close := by
    unfold clip
    split
    · cases coding <;> rfl
    · rfl
  unfold sendFrame
  dsimp only
  split
  · exact hc
  · exact hc

theorem sendBodyless_close (ctx : Ctx) (head : List Byte) :
    (ctx.sendBodyless head).2.res.close = ctx.res.close := by
  unfold sendBodyless
  dsimp only
  split
  · rfl
  · split <;> rfl

theorem sendCoded_close (ctx : Ctx) (head : List Byte) :
    (ctx.sendCoded head).2.res.close = ctx.res.close := by
  unfold sendCoded
  dsimp only
  split <;> rfl

theorem encodeLoop_close (script : List FilterOut) (ctx : Ctx) (op : FilterOp)
    (head : Option (List Byte)) (input : List Byte) :
    (encodeLoop script ctx op head input).2.1.res.close = ctx.res.close := by
  induction script generalizing ctx head input with
  | nil => rfl
  | cons r script ih =>
    simp only [encodeLoop]
    split
    · rfl
    split
    · rfl
    split
    · cases head with
      | none => rfl
      | some h =>
        dsimp only
        split
        · exact sendCoded_close _ h
        · exact (ih _ _ _).trans (sendCoded_close _ h)
    · split
      · rfl
      · exact ih _ _ _

theorem flushBody_close (ctx : Ctx) (kind : FlushKind) (coding whole : Bool)
    (head extra : List Byte) :
    (ctx.flushBody kind coding whole head extra).2.res.close = ctx.res.close := by
  have he (op : FilterOp) (head : Option (List Byte)) :
      (ctx.encode op head).2.1.res.close = ctx.res.close := encodeLoop_close _ ctx op head _
  unfold flushBody
  split
  · exact sendBodyless_close ctx head
  split
  · dsimp only
    split
    · rename_i c _ henc
      have hc := congrArg (fun r => r.2.1.res.close) henc
      exact hc.symm.trans (he _ _)
    · rename_i c _ henc
      have hc := congrArg (fun r => r.2.1.res.close) henc
      exact (sendFrame_close c _ _ _ _).trans (hc.symm.trans (he _ _))
  · exact sendFrame_close ctx _ _ _ _

-- ---------------------------------------------------------------------------
-- The declared length
-- ---------------------------------------------------------------------------

def Capped (ctx : Ctx) : Prop := ctx.res.hasLength = true → ctx.res.bodySent ≤ ctx.res.contentLength

theorem sendFrame_capped (h : Capped ctx) (final coding : Bool) (head extra : List Byte) :
    Capped (ctx.sendFrame final coding head extra).2 ∧
      (ctx.sendFrame final coding head extra).2.res.hasLength = ctx.res.hasLength := by
  have hc : (ctx.clip coding extra).1.res = ctx.res ∧ (ctx.res.hasLength = true →
      ((ctx.clip coding extra).1.sw coding).len + (ctx.clip coding extra).2.1.length ≤
        ctx.res.contentLength - ctx.res.bodySent) := by
    unfold clip
    split
    · refine ⟨by cases coding <;> rfl, fun _ => ?_⟩
      dsimp only
      rw [List.length_take]
      cases coding
      · show min ctx.out.len _ + min (_ - min ctx.out.len _) _ ≤ _
        omega
      · show min ctx.coded.len _ + min (_ - min ctx.coded.len _) _ ≤ _
        omega
    · rename_i hl
      exact ⟨rfl, fun h => absurd h hl⟩
  unfold sendFrame
  generalize ctx.clip coding extra = r at hc
  obtain ⟨c, extra, overran⟩ := r
  obtain ⟨hres, hroom⟩ := hc
  dsimp only at hres hroom ⊢
  have hb (n : Nat) (hn : n = (c.sw coding).len + extra.length) (hl : c.res.hasLength = true) :
      c.res.bodySent + n ≤ c.res.contentLength := by
    rw [hres] at hl ⊢
    have := h hl
    have := hroom hl
    omega
  have hl : c.res.hasLength = ctx.res.hasLength := by rw [hres]
  split
  · exact ⟨fun ht => hb _ rfl ht, hl⟩
  · exact ⟨fun ht => hb _ rfl ht, hl⟩

theorem encodeLoop_hasLength (script : List FilterOut) (ctx : Ctx) (op : FilterOp)
    (head : Option (List Byte)) (input : List Byte) :
    (encodeLoop script ctx op head input).2.1.res.hasLength = ctx.res.hasLength := by
  have hs (c : Ctx) (h : List Byte) : (c.sendCoded h).2.res.hasLength = c.res.hasLength := by
    unfold sendCoded
    dsimp only
    split <;> rfl
  induction script generalizing ctx head input with
  | nil => rfl
  | cons r script ih =>
    simp only [encodeLoop]
    split
    · rfl
    split
    · rfl
    split
    · cases head with
      | none => rfl
      | some h =>
        dsimp only
        split
        · exact hs _ h
        · exact (ih _ _ _).trans (hs _ h)
    · split
      · rfl
      · exact ih _ _ _

theorem flushBody_capped (h : Capped ctx) (kind : FlushKind) {coding whole : Bool}
    (hc : coding = true → whole = false → ctx.res.hasLength = false) (head extra : List Byte) :
    Capped (ctx.flushBody kind coding whole head extra).2 ∧
      (ctx.flushBody kind coding whole head extra).2.res.hasLength = ctx.res.hasLength := by
  unfold flushBody
  split
  · unfold sendBodyless
    dsimp only
    split
    · exact ⟨h, rfl⟩
    · split <;> exact ⟨h, rfl⟩
  split
  · rename_i hw
    have hn := hc hw.1 (by simpa using hw.2)
    have he (op : FilterOp) (head : Option (List Byte)) :
        (ctx.encode op head).2.1.res.hasLength = ctx.res.hasLength :=
      encodeLoop_hasLength _ ctx op head _
    dsimp only
    split
    · rename_i c _ henc
      have hl := (congrArg (fun r => r.2.1.res.hasLength) henc).symm.trans (he _ _)
      exact ⟨fun ht => absurd ht (by rw [hl, hn]; decide), hl⟩
    · rename_i c _ henc
      have hl := (congrArg (fun r => r.2.1.res.hasLength) henc).symm.trans (he _ _)
      have hb : Capped c := fun ht => absurd ht (by rw [hl, hn]; decide)
      obtain ⟨h1, h2⟩ := sendFrame_capped hb (decide (kind = .final)) coding _ extra
      exact ⟨h1, h2.trans hl⟩
  · exact sendFrame_capped h _ _ _ _

-- ---------------------------------------------------------------------------
-- The first flush
-- ---------------------------------------------------------------------------

theorem startHead_fst (ctx : Ctx) (final coding : Bool) :
    (ctx.startHead final coding).1 = buildHead ctx.req.minorVersion ctx.req.keepAlive { ctx.res with
      close := ctx.res.close || decide (ctx.frameOf final = .untilClose) || ctx.undrainable }
      headCap (ctx.frameOf final) (ctx.headLength final coding) := by
  unfold startHead headLength declares
  dsimp only
  split
  · rename_i he
    exact he.symm
  · rename_i he
    exact he.symm

/-- The flush that sent the head `hd`. -/
structure Built (base : List Byte) (kind : FlushKind) (ctx ctx' : Ctx) (hd : Head) : Prop where
  sent : ctx'.res.headSent = true
  filter : ctx'.filter.isSome = ctx.filter.isSome
  wire : base ++ hd.encode <+: ctx'.sock.wire
  interim : ctx'.continueSent = ctx.continueSent
  close : ctx.undrainable = true → ctx'.res.close = true
  capped : Capped ctx'
  plain : kind ≠ .final → ctx'.res.hasLength = true → (ctx'.filter.isSome && !ctx'.headOnly) = false
  head : ∃ (frame : Frame) (len : Nat), len ≤ sizeMax ∧
    buildHead ctx.req.minorVersion ctx.req.keepAlive { ctx.res with close := ctx'.res.close }
      headCap frame len = some hd.encode

/-- What a flush needs that codes nothing, for either kind of request. -/
structure Still (base : List Byte) (ctx : Ctx) : Prop where
  unsent : ctx.res.headSent = false
  fit : Fit ctx.out
  cap : ctx.out.cap = pipeCap
  able : ctx.out.failed = false
  head : HeadOk ctx.res
  length : ctx.res.contentLength ≤ sizeMax
  wire : ctx.sock.wire = base
  zero : ctx.res.bodySent = 0

theorem Held.still (h : Held P base W ctx) : Still base ctx :=
  ⟨h.unsent, h.gear.fit, h.gear.cap, h.gear.able, h.gear.head, h.gear.length, h.wire, h.zero⟩

theorem flushHead_built_bare (h : Still base ctx) (hn : (ctx.filter.isSome && !ctx.headOnly) = false)
    {extra : List Byte} (hr : ctx.flushHead kind extra = (true, ctx')) :
    ∃ hd : Head, Built base kind ctx ctx' hd := by
  have hlen : ctx.headLength (kind = .final) false ≤ sizeMax := by
    unfold headLength
    split
    · exact h.length
    · exact (h.fit.ok.len.trans h.cap.le).trans (by decide)
  have hbuild := startHead_fst ctx (kind = .final) false
  obtain ⟨hd, hstart, -, -, hshort⟩ := startHead_spec h.head hlen
  rw [hstart] at hbuild
  unfold flushHead at hr
  simp only [hn, h.unsent, Bool.false_and, Bool.false_eq_true, false_and, if_false, hstart] at hr
  have hon := @flushBody_onward (ctx.headed (kind = .final) false) kind false nofun false
    hd.encode extra
  have hcl := flushBody_close (ctx.headed (kind = .final) false) kind false false hd.encode extra
  have hb0 : Capped (ctx.headed (kind = .final) false) := fun _ => h.zero ▸ Nat.zero_le _
  obtain ⟨hbd, -⟩ := @flushBody_capped _ hb0 kind false false nofun hd.encode extra
  have hm := (flushBody_mute (ctx.headed (kind = .final) false) kind false false hd.encode extra).fields
  rw [hr] at hon hcl hbd hm
  obtain ⟨-, -, -, -, -, -, -, hm⟩ := hm
  have hplain : (ctx'.filter.isSome && !ctx'.headOnly) = false := by
    rw [hm, hon.filter]
    exact hn
  refine ⟨hd, hon.sent, hon.filter, ?_, hon.interim, fun hu => ?_, hbd, fun _ _ => hplain,
    ctx.frameOf (kind = .final), _, hlen, ?_⟩
  · rw [← h.wire]
    unfold flushBody at hr
    split at hr
    · exact @sendBodyless_head (ctx.headed (kind = .final) false) _ _ h.able hshort hr
    · rw [if_neg (by simp)] at hr
      exact @sendFrame_head (ctx.headed (kind = .final) false) _ _ false _ _ h.fit h.able hshort hr
  · rw [hcl]
    simp [headed, hu]
  · rw [hcl]
    exact hbuild.symm

theorem flushHead_built_coded {script : Filter} (h : Held P base W ctx)
    (hf : ctx.filter = some script) (hk : kind ≠ .final) {extra : List Byte}
    (hr : ctx.flushHead kind extra = (true, ctx')) : ∃ hd : Head, Built base kind ctx ctx' hd := by
  have h1 : Held P base W { ctx with res := { ctx.res with hasLength := false } } :=
    h.setRes rfl rfl rfl rfl (h.gear.head.congr rfl rfl rfl) h.gear.length
  obtain ⟨head, c, hstart, hsent, hc⟩ := startHead_streamed h1 hf rfl
  have hlen : Ctx.headLength { ctx with res := { ctx.res with hasLength := false } } false true ≤
      sizeMax := by
    have hd : Ctx.declares { ctx with res := { ctx.res with hasLength := false } } false = false := by
      simp [declares]
    simp only [headLength, hd]
    exact h.gear.codedFit.ok.len.trans h.gear.codedCap
  have hbuild := startHead_fst { ctx with res := { ctx.res with hasLength := false } } false true
  obtain ⟨hd, hstart', -, -, hshort⟩ := startHead_spec h1.gear.head hlen
  obtain ⟨he, rfl⟩ := Prod.mk.inj (hstart.symm.trans hstart')
  obtain rfl := Option.some.inj he
  rw [hstart'] at hbuild
  rw [flushHead_coded h.unsent hf h.gear.asked hk, hstart'] at hr
  dsimp only [behindHead] at hr
  have hw : (Ctx.headed { ctx with res := { ctx.res with hasLength := false } } false true).sock.wire =
      base := h.wire
  have hout : (Ctx.headed { ctx with res := { ctx.res with hasLength := false } } false
      true).out.failed = false := h.gear.able
  have hfil : (Ctx.headed { ctx with res := { ctx.res with hasLength := false } } false
      true).filter = some script := hf
  have hasked : (Ctx.headed { ctx with res := { ctx.res with hasLength := false } } false
      true).continueSent = ctx.continueSent := rfl
  have hcl := flushBody_close (Ctx.headed { ctx with res := { ctx.res with hasLength := false } }
    false true) kind true false hd.encode extra
  have hlong : (Ctx.headed { ctx with res := { ctx.res with hasLength := false } } false
      true).res.hasLength = false := rfl
  have hund : ctx.undrainable = true → (Ctx.headed { ctx with res := { ctx.res with
      hasLength := false } } false true).res.close = true := by
    intro hu
    have hu' : Ctx.undrainable { ctx with res := { ctx.res with hasLength := false } } = true := hu
    simp [headed, hu']
  rw [hr] at hcl
  have hsame : ∃ frame len, len ≤ sizeMax ∧ buildHead ctx.req.minorVersion ctx.req.keepAlive
      { ctx.res with close := ctx'.res.close } headCap frame len = some hd.encode := by
    refine ⟨Ctx.frameOf { ctx with res := { ctx.res with hasLength := false } } false, _, hlen, ?_⟩
    rw [hcl]
    exact hbuild.symm
  generalize Ctx.headed { ctx with res := { ctx.res with hasLength := false } } false true = c at *
  have hon := @flushBody_onward c kind true (fun _ => by rw [hfil]; rfl) false hd.encode extra
  have hb0 : Capped c := fun ht => absurd ht (by rw [hlong]; decide)
  obtain ⟨hbd, hl'⟩ := @flushBody_capped _ hb0 kind true false (fun _ _ => hlong) hd.encode extra
  rw [hr] at hon hbd hl'
  refine ⟨hd, hon.sent.trans hsent, hon.filter.trans (by rw [hfil, hf]), ?_,
    hon.interim.trans hasked, fun hu => hcl.trans (hund hu), hbd,
    fun _ ht => absurd ht (by rw [hl', hlong]; decide), hsame⟩
  rw [← hw]
  rcases hc with hb | hst
  · unfold flushBody at hr
    rw [if_pos hb] at hr
    exact sendBodyless_head hout hshort hr
  · rw [flushBody_coded hst.body] at hr
    split at hr
    · simp at hr
    · rename_i c₁ head₁ henc
      unfold encode at henc
      rw [hfil] at henc
      have hp := encodeLoop_head hst.coding henc
      obtain ⟨used, rest, hs, hran, hc₁, -⟩ := encodeLoop_coding hst.coding henc
      exact hp.trans (@sendFrame_head c₁ ctx' _ true _ _ hc₁.fit hc₁.able hc₁.short hr)

theorem flushHead_built_final {script : Filter} (h : Held P base W ctx)
    (hf : ctx.filter = some script) {extra : List Byte}
    (hr : ctx.flushHead .final extra = (true, ctx')) : ∃ hd : Head, Built base .final ctx ctx' hd := by
  rw [flushHead_final h.unsent hf h.gear.asked] at hr
  split at hr
  · simp at hr
  · rename_i c hd' henc
    unfold encode at henc
    rw [hf] at henc
    obtain ⟨used, rest, hs, hran, hc, hnone⟩ := encodeLoop_coding h.coding henc
    obtain rfl := hnone rfl
    have hsent : c.res.headSent = false := by
      rw [hran.eq]
      exact h.unsent
    rw [if_neg (by simp [hsent])] at hr
    obtain ⟨hok, hcl, hfil, hout⟩ : HeadOk c.res ∧ c.res.contentLength ≤ sizeMax ∧
        c.filter = some rest ∧ c.out.failed = false := by
      rw [hran.eq]
      exact ⟨h.gear.head.congr rfl rfl rfl, h.gear.length, rfl, h.gear.able⟩
    have hw : c.sock.wire = base ∧ c.res.bodySent = 0 := by
      obtain ⟨t, data, hwire, hst, -⟩ := hc.stage
      rw [Option.getD_none, List.append_nil] at hst
      cases hst with
      | held _ _ hz => exact ⟨by rw [hwire, List.append_nil], hz⟩
      | length hs' => simp [hsent] at hs'
      | chunked hs' => simp [hsent] at hs'
      | untilClose hs' => simp [hsent] at hs'
    have hlen : c.headLength true true ≤ sizeMax := by
      unfold headLength
      split
      · exact hcl
      · exact hc.fit.ok.len.trans hc.cap
    have hbuild := startHead_fst c true true
    obtain ⟨hd, hstart, -, -, hshort⟩ := startHead_spec hok hlen
    rw [hstart] at hr hbuild
    dsimp only [behindHead] at hr
    have hfil' : (c.headed true true).filter.isSome = true := by
      show c.filter.isSome = true
      rw [hfil]
      rfl
    have hon := @flushBody_onward (c.headed true true) .final true (fun _ => hfil') true hd.encode
      extra
    have hclose := flushBody_close (c.headed true true) .final true true hd.encode extra
    have hb0 : Capped (c.headed true true) := fun _ => hw.2 ▸ Nat.zero_le _
    obtain ⟨hbd, -⟩ := @flushBody_capped _ hb0 .final true true nofun hd.encode extra
    rw [hr] at hon hclose hbd
    have hund : ctx.undrainable = c.undrainable := by
      rw [hran.eq]
      rfl
    have hasked : c.continueSent = ctx.continueSent := by rw [hran.eq]
    have hsame (close : Bool) (frame : Frame) (len : Nat) :
        buildHead ctx.req.minorVersion ctx.req.keepAlive { ctx.res with close := close } headCap
            frame len = buildHead c.req.minorVersion c.req.keepAlive { c.res with close := close }
          headCap frame len := by
      rw [hran.eq]
      rfl
    refine ⟨hd, hon.sent, hon.filter.trans (hfil'.trans (by rw [hf]; rfl)), ?_,
      hon.interim.trans hasked, fun hu => ?_, hbd, fun h => absurd rfl h, c.frameOf true, _, hlen, ?_⟩
    · rw [← hw.1]
      unfold flushBody at hr
      split at hr
      · exact @sendBodyless_head (c.headed true true) _ _ hout hshort hr
      · rw [if_neg (by simp)] at hr
        exact @sendFrame_head (c.headed true true) _ _ true _ _ hc.fit hc.able hshort hr
    · rw [hclose]
      simp [headed, ← hund, hu]
    · rw [hsame, hclose]
      exact hbuild.symm

theorem flushHead_built (h : Held P base W ctx) {extra : List Byte}
    (hr : ctx.flushHead kind extra = (true, ctx')) : ∃ hd : Head, Built base kind ctx ctx' hd := by
  cases hf : ctx.filter with
  | none => exact flushHead_built_bare h.still (by simp [hf]) hr
  | some script =>
    by_cases hk : kind = .final
    · subst hk
      exact flushHead_built_final h hf hr
    · exact flushHead_built_coded h hf hk hr

end Ctx

end Ioxd.Http
