import Ioxd.Http.DrainLaws
import Ioxd.Http.MuteLaws

/-!
# Behind the head

What is on the wire stays there, whatever becomes of a send. Once the head is
out it is out for good, with the filter that was installed or with none, and
with a body or without: the calls that come later change none of it.
-/

namespace Ioxd.Pipe

namespace Socket

theorem take_grows (s : Socket) (data : List Byte) : s.wire <+: (s.take data).2.wire := by
  unfold take
  split
  · exact List.prefix_rfl
  · exact List.prefix_rfl
  · exact List.prefix_append ..
  · exact List.prefix_append ..

theorem sendLoop_grows (fuel : Nat) (s : Socket) (left : List Byte) :
    s.wire <+: (s.sendLoop fuel left).2.wire := by
  induction fuel generalizing s left with
  | zero => exact List.prefix_rfl
  | succ fuel ih =>
    have ht := s.take_grows left
    unfold sendLoop
    split
    · exact List.prefix_rfl
    · dsimp only
      split
      · exact ht
      split
      · exact ht
      · exact ht.trans (ih _ _)

theorem connSend_grows (s : Socket) (data : List Byte) : s.wire <+: (s.connSend data).2.wire := by
  have hl := s.sendLoop_grows (data.length + 1) data
  unfold connSend
  split <;> (rename_i he; rwa [he] at hl)

theorem sendvLoop_grows (fuel : Nat) (s : Socket) (iov : List (List Byte)) :
    s.wire <+: (s.sendvLoop fuel iov).2.wire := by
  induction fuel generalizing s iov with
  | zero => exact List.prefix_rfl
  | succ fuel ih =>
    have ht := s.take_grows iov.flatten
    unfold sendvLoop
    split
    · exact List.prefix_rfl
    · dsimp only
      split
      · exact ht
      split
      · exact ht
      · exact ht.trans (ih _ _)

end Socket

namespace Pipewriter

theorem flushWith_grows (pw : Pipewriter) (s : Socket) (data : List Byte) :
    s.wire <+: (pw.flushWith s data).2.2.wire := by
  have hs : s.wire <+: (pw.sendSpan s data).2.wire := by
    unfold sendSpan
    dsimp only
    split
    · exact s.sendvLoop_grows _ _
    split
    · exact s.connSend_grows _
    split
    · exact s.connSend_grows _
    · exact List.prefix_rfl
  unfold flushWith
  split
  · exact List.prefix_rfl
  · dsimp only
    split <;> exact hs

theorem through_grows (pw : Pipewriter) (s : Socket) (data : List Byte) :
    s.wire <+: (pw.through s data).2.2.wire := by
  have hs := s.connSend_grows data
  unfold through
  split
  · exact List.prefix_rfl
  · dsimp only
    split <;> exact hs

end Pipewriter

end Ioxd.Pipe

namespace Ioxd.Http

open Flat
open Ioxd.Pipe

theorem emit_grows (pw : Pipewriter) (s : Socket) (chunked final : Bool) (head extra : List Byte) :
    s.wire <+: (emit pw s chunked final head extra).2.2.wire := by
  have hh (pw : Pipewriter) : s.wire <+: (putHead pw s head).2.2.wire := by
    unfold putHead
    split
    · exact List.prefix_rfl
    · exact Pipewriter.through_grows _ _ _
  unfold emit
  generalize (if chunked = true ∧ pw.len ≠ 0 then putChunk pw else (true, pw)) = r
  obtain ⟨ok, pw⟩ := r
  dsimp only
  split
  · exact List.prefix_rfl
  generalize (if final = true ∧ chunked = true then putTerminator pw else (true, pw)) = r
  obtain ⟨ok, pw⟩ := r
  dsimp only
  split
  · exact List.prefix_rfl
  have hp : s.wire <+: (if head ≠ [] then putHead pw s head else (true, pw, s)).2.2.wire := by
    split
    · exact hh pw
    · exact List.prefix_rfl
  generalize (if head ≠ [] then putHead pw s head else (true, pw, s)) = r at hp
  obtain ⟨ok, pw, s'⟩ := r
  dsimp only at hp ⊢
  split
  · exact hp
  · exact hp.trans (Pipewriter.flushWith_grows _ _ _)

namespace Ctx

variable {ctx ctx' ctx'' : Ctx}

structure Onward (ctx ctx' : Ctx) : Prop where
  wire : ctx.sock.wire <+: ctx'.sock.wire
  filter : ctx'.filter.isSome = ctx.filter.isSome
  sent : ctx'.res.headSent = ctx.res.headSent
  noBody : ctx'.noBody = ctx.noBody
  interim : ctx'.continueSent = ctx.continueSent

theorem Onward.refl (ctx : Ctx) : Onward ctx ctx := ⟨List.prefix_rfl, rfl, rfl, rfl, rfl⟩

theorem Onward.trans (h : Onward ctx ctx') (h' : Onward ctx' ctx'') : Onward ctx ctx'' :=
  ⟨h.wire.trans h'.wire, h'.filter.trans h.filter, h'.sent.trans h.sent, h'.noBody.trans h.noBody,
    h'.interim.trans h.interim⟩

theorem onward_of (h1 : ctx'.sock = ctx.sock) (h2 : ctx'.filter = ctx.filter)
    (h3 : ctx'.res.headSent = ctx.res.headSent) (h4 : ctx'.noBody = ctx.noBody)
    (h5 : ctx'.continueSent = ctx.continueSent) : Onward ctx ctx' :=
  ⟨h1 ▸ List.prefix_rfl, congrArg Option.isSome h2, h3, h4, h5⟩

theorem fail_onward (ctx : Ctx) : Onward ctx ctx.fail := onward_of rfl rfl rfl rfl rfl

theorem sendFrame_onward (ctx : Ctx) (final coding : Bool) (head extra : List Byte) :
    Onward ctx (ctx.sendFrame final coding head extra).2 := by
  have hc : Onward ctx (ctx.clip coding extra).1 := by
    unfold clip
    split
    · cases coding <;> exact onward_of rfl rfl rfl rfl rfl
    · exact .refl ctx
  unfold sendFrame
  generalize ctx.clip coding extra = r at hc
  obtain ⟨c, extra, overran⟩ := r
  have hg := emit_grows (c.sw coding) c.sock c.res.chunked final head extra
  dsimp only at hc ⊢
  generalize emit (c.sw coding) c.sock c.res.chunked final head extra = r at hg
  obtain ⟨ok, pw, sock⟩ := r
  have hs (n : Nat) : Onward c { c.setSw coding pw with
      sock := sock, res := { c.res with bodySent := c.res.bodySent + n } } := by
    cases coding <;> exact ⟨hg, rfl, rfl, rfl, rfl⟩
  dsimp only
  split
  · exact (hc.trans (hs _)).trans (fail_onward _)
  · exact hc.trans (hs _)

theorem sendBodyless_onward (ctx : Ctx) (head : List Byte) :
    Onward ctx (ctx.sendBodyless head).2 := by
  have ht := Pipewriter.through_grows ctx.out.reset ctx.sock head
  unfold sendBodyless
  dsimp only
  split
  · exact onward_of rfl rfl rfl rfl rfl
  split <;> exact ⟨ht, rfl, rfl, rfl, rfl⟩

theorem sendCoded_onward (ctx : Ctx) (head : List Byte) : Onward ctx (ctx.sendCoded head).2 := by
  have he := emit_grows ctx.coded ctx.sock ctx.res.chunked false head []
  unfold sendCoded
  dsimp only
  split <;> exact ⟨he, rfl, rfl, rfl, rfl⟩

theorem encodeLoop_onward (script : List FilterOut) (ctx : Ctx) (hf : ctx.filter.isSome = true)
    (op : FilterOp) (head : Option (List Byte)) (input : List Byte) :
    Onward ctx (encodeLoop script ctx op head input).2.1 := by
  induction script generalizing ctx head input with
  | nil => exact onward_of rfl rfl rfl rfl rfl
  | cons r script ih =>
    have h1 (log : List FilterIn) (cw : Pipewriter) :
        Onward ctx { ctx with filter := some script, filterLog := log, coded := cw } :=
      ⟨List.prefix_rfl, by rw [hf]; rfl, rfl, rfl, rfl⟩
    unfold encodeLoop
    dsimp only
    split
    · exact (h1 _ _).trans (fail_onward _)
    split
    · exact ⟨List.prefix_rfl, by rw [hf]; rfl, rfl, rfl, rfl⟩
    split
    · cases head with
      | none => exact (h1 _ _).trans (fail_onward _)
      | some hd =>
        dsimp only
        split
        · exact ((h1 _ _).trans (sendCoded_onward _ hd)).trans (fail_onward _)
        · refine ((h1 _ _).trans (sendCoded_onward _ hd)).trans (ih _ ?_ _ _)
          rw [(sendCoded_onward _ hd).filter]
          rfl
    split
    · exact (h1 _ _).trans (fail_onward _)
    · exact (h1 _ _).trans (ih _ rfl _ _)

theorem flushBody_onward (ctx : Ctx) (kind : FlushKind) {coding : Bool}
    (hf : coding = true → ctx.filter.isSome = true) (whole : Bool) (head extra : List Byte) :
    Onward ctx (ctx.flushBody kind coding whole head extra).2 := by
  unfold flushBody
  split
  · exact sendBodyless_onward ctx head
  split
  · rename_i hc
    dsimp only
    unfold encode
    split
    · rename_i c _ h
      have e : _ = c := congrArg (fun r => r.2.1) h
      show Onward ctx c
      rw [← e]
      exact encodeLoop_onward _ ctx (hf hc.1) _ _ _
    · rename_i c _ h
      have e : _ = c := congrArg (fun r => r.2.1) h
      have he : Onward ctx c := by
        rw [← e]
        exact encodeLoop_onward _ ctx (hf hc.1) _ _ _
      exact he.trans (sendFrame_onward _ _ _ _ _)
  · exact sendFrame_onward _ _ _ _ _

theorem flushWith_onward (h : ctx.res.headSent = true) (kind : FlushKind) (extra : List Byte) :
    Onward ctx (ctx.flushWith kind extra).2 := by
  unfold flushWith
  split
  · exact .refl ctx
  · have hc : ctx.callOnHead (kind = .final) = ctx := by
      unfold callOnHead
      split
      · rw [if_pos (.inl h)]
      · rfl
    rw [hc]
    have hb := @flushBody_onward ctx kind (ctx.filter.isSome && !ctx.headOnly)
      (fun hc => (Bool.and_eq_true _ _ ▸ hc).1) false [] extra
    simpa [flushHead, h] using hb

theorem writeLoop_onward (turns : Nat) (h : ctx.res.headSent = true) (src : List Byte) :
    Onward ctx (ctx.writeLoop turns src).2 := by
  induction turns generalizing ctx src with
  | zero => exact .refl ctx
  | succ turns ih =>
    unfold writeLoop
    split
    · exact .refl ctx
    split
    · have hf := flushWith_onward h .full []
      unfold flush
      split
      · rename_i he
        rwa [he] at hf
      · rename_i he
        rw [he] at hf
        exact hf.trans (ih (hf.sent.trans h) src)
    · dsimp only
      have hc (out : Pipewriter) : Onward ctx { ctx with out := out } := onward_of rfl rfl rfl rfl rfl
      refine (hc _).trans (ih ?_ _)
      exact h

theorem write_onward (h : ctx.res.headSent = true) (data : List Byte) :
    Onward ctx (ctx.write data).2 := by
  unfold write
  split
  · exact .refl ctx
  split
  · exact flushWith_onward h .full data
  · exact writeLoop_onward _ h data

theorem reserveOp_onward (h : ctx.res.headSent = true) (n : Nat) (data : List Byte) :
    Onward ctx (ctx.reserveOp n data) := by
  have hr : Onward ctx (ctx.reserve n).2 := by
    unfold reserve
    split
    · exact .refl ctx
    split
    · have hf := flushWith_onward h .full []
      unfold flush
      split
      · rename_i he
        rwa [he] at hf
      · rename_i he
        rwa [he] at hf
    · exact .refl ctx
  unfold reserveOp
  split
  · rename_i he
    rwa [he] at hr
  · rename_i he
    rw [he] at hr
    exact hr.trans (onward_of rfl rfl rfl rfl rfl)

theorem headOp_onward (h : ctx.res.headSent = true) (op : HeadOp) : Onward ctx (ctx.headOp op) := by
  cases op with
  | status status => exact onward_of rfl rfl rfl rfl rfl
  | header name value =>
    have e : (Http.header ctx.res name value).2 = ctx.res := by simp [Http.header, h]
    simp only [headOp, e]
    exact .refl ctx
  | contentType type =>
    have e : (Http.contentType ctx.res type).2 = ctx.res := by simp [Http.contentType, h]
    simp only [headOp, e]
    exact .refl ctx
  | contentLength n =>
    have e : (Http.contentLength ctx.res n).2 = ctx.res := by simp [Http.contentLength, h]
    simp only [headOp, e]
    exact .refl ctx
  | close => exact onward_of rfl rfl rfl rfl rfl
  | replyFilter filter =>
    have e : ctx.replyFilter filter = (false, ctx) := by simp [replyFilter, h]
    simp only [headOp, e]
    exact .refl ctx

theorem settleBody_onward (ctx : Ctx) : Onward ctx ctx.settleBody := by
  rw [(settleBody_deaf ctx).eq]
  exact onward_of rfl rfl rfl rfl rfl

theorem finish_onward (h : ctx.res.headSent = true) : Onward ctx ctx.finish.2 := by
  have hclose (c : Ctx) (b : Bool) : Onward c { c with res := { c.res with close := b } } :=
    onward_of rfl rfl rfl rfl rfl
  unfold finish
  split
  · exact .refl ctx
  · split
    rename_i ok c hlast
    have hon : Onward ctx c := by
      split at hlast
      · have hf := flushWith_onward h .final []
        unfold flush at hlast
        rwa [hlast] at hf
      split at hlast
      · split at hlast
        · obtain ⟨-, rfl⟩ := Prod.mk.inj hlast
          exact onward_of rfl rfl rfl rfl rfl
        · rename_i pw _
          have hg := Pipewriter.flushWith_grows pw ctx.sock []
          dsimp only at hlast
          split at hlast
          all_goals
            obtain ⟨-, rfl⟩ := Prod.mk.inj hlast
            exact ⟨hg, rfl, rfl, rfl, rfl⟩
      · obtain ⟨-, rfl⟩ := Prod.mk.inj hlast
        exact .refl ctx
    split
    · exact hon
    · exact hon.trans (hclose c _)

theorem flushWith_stuck (h : ctx.res.failed = true) (kind : FlushKind) (extra : List Byte) :
    ctx.flushWith kind extra = (false, ctx) := by
  unfold flushWith
  rw [if_pos h]

theorem writeLoop_stuck (turns : Nat) (h : ctx.res.failed = true) (src : List Byte) :
    (ctx.writeLoop turns src).2.res.failed = true ∧ (ctx.writeLoop turns src).2.sock = ctx.sock := by
  induction turns generalizing ctx src with
  | zero => exact ⟨h, rfl⟩
  | succ turns ih =>
    unfold writeLoop
    split
    · exact ⟨h, rfl⟩
    split
    · unfold flush
      rw [flushWith_stuck h]
      exact ⟨h, rfl⟩
    · have hc (out : Pipewriter) : { ctx with out := out }.res.failed = true := h
      exact ih (hc _) _

theorem headOp_failed (ctx : Ctx) (op : HeadOp) :
    (ctx.headOp op).res.failed = ctx.res.failed ∧ (ctx.headOp op).sock = ctx.sock := by
  cases op with
  | status status => exact ⟨rfl, rfl⟩
  | header name value =>
    refine ⟨?_, rfl⟩
    simp only [headOp, header, contentType, Response.headRoom]
    split_ifs <;> rfl
  | contentType type =>
    refine ⟨?_, rfl⟩
    simp only [headOp, contentType]
    split_ifs <;> rfl
  | contentLength n =>
    refine ⟨?_, rfl⟩
    simp only [headOp, contentLength]
    split <;> rfl
  | close => exact ⟨rfl, rfl⟩
  | replyFilter filter =>
    have e : (ctx.replyFilter filter).2.res = ctx.res ∧ (ctx.replyFilter filter).2.sock = ctx.sock := by
      unfold replyFilter
      split <;> exact ⟨rfl, rfl⟩
    exact ⟨congrArg Response.failed e.1, e.2⟩

end Ctx

end Ioxd.Http
