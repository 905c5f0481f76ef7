import Ioxd.Http.Serve

/-!
# What writing a reply leaves alone

The calls that write a reply touch the two writers, the socket and the response;
the request, the reader and the state of the body stay as they are, and a reply
that is to close the connection stays one.
-/

namespace Ioxd.Http

open Flat
open Ioxd.Pipe

namespace Ctx

variable {ctx ctx' ctx'' : Ctx}

/-- `ctx'` with all that a write may touch as it is in `ctx`. -/
def restoreReply (ctx ctx' : Ctx) : Ctx :=
  { ctx' with
    out := ctx.out
    sock := ctx.sock
    res := ctx.res
    noBody := ctx.noBody
    continueSent := ctx.continueSent
    onHead := ctx.onHead
    filter := ctx.filter
    filterLog := ctx.filterLog
    coded := ctx.coded }

structure Mute (ctx ctx' : Ctx) : Prop where
  rest : restoreReply ctx ctx' = ctx
  close : ctx.res.close = true → ctx'.res.close = true

theorem Mute.refl (ctx : Ctx) : Mute ctx ctx := ⟨rfl, fun h => h⟩

theorem Mute.trans (h : Mute ctx ctx') (h' : Mute ctx' ctx'') : Mute ctx ctx'' where
  rest :=
    calc restoreReply ctx ctx'' = restoreReply ctx (restoreReply ctx' ctx'') := rfl
      _ = restoreReply ctx ctx' := by rw [h'.rest]
      _ = ctx := h.rest
  close hc := h'.close (h.close hc)

theorem Mute.behind (h : Mute ctx' ctx'') (hr : restoreReply ctx ctx' = ctx)
    (hc : ctx'.res.close = ctx.res.close) : Mute ctx ctx'' :=
  Mute.trans ⟨hr, fun h => hc.trans h⟩ h

theorem Mute.fields (h : Mute ctx ctx') : ctx'.feed = ctx.feed ∧ ctx'.req = ctx.req ∧
    ctx'.bodyRead = ctx.bodyRead ∧ ctx'.bodyDone = ctx.bodyDone ∧
    ctx'.bodyWhole = ctx.bodyWhole ∧ ctx'.bodyErr = ctx.bodyErr ∧
    ctx'.chunkLeft = ctx.chunkLeft ∧ ctx'.headOnly = ctx.headOnly := by
  have hr := h.rest
  rw [← hr]
  exact ⟨rfl, rfl, rfl, rfl, rfl, rfl, rfl, rfl⟩

theorem fail_mute (ctx : Ctx) : Mute ctx ctx.fail := ⟨rfl, fun h => h⟩

theorem headOp_mute (ctx : Ctx) (op : HeadOp) : Mute ctx (ctx.headOp op) := by
  have hheader (res : Response) (name value : List Byte) :
      (header res name value).2.close = res.close ∧
        (contentType res value).2.close = res.close := by
    constructor
    · unfold header contentType Response.headRoom
      grind
    · unfold contentType
      grind
  cases op with
  | status status => exact ⟨rfl, fun h => h⟩
  | header name value =>
    exact ⟨rfl, fun h => (hheader ctx.res name value).1.trans h⟩
  | contentType type => exact ⟨rfl, fun h => (hheader ctx.res [] type).2.trans h⟩
  | contentLength n =>
    refine ⟨rfl, fun h => ?_⟩
    simp only [headOp, contentLength]
    split <;> exact h
  | close => exact ⟨rfl, fun _ => rfl⟩
  | replyFilter filter =>
    simp only [headOp, replyFilter]
    split
    · exact .refl ctx
    · exact ⟨rfl, fun h => h⟩

theorem callOnHead_mute (ctx : Ctx) (final : Bool) : Mute ctx (ctx.callOnHead final) := by
  unfold callOnHead
  split
  · split
    · exact .refl ctx
    · rename_i fn _ _
      have hfold (ops : List HeadOp) (c : Ctx) : Mute c (ops.foldl headOp c) := by
        induction ops generalizing c with
        | nil => exact .refl c
        | cons op ops ih => exact (headOp_mute c op).trans (ih _)
      exact (hfold _ { ctx with onHead := none }).behind rfl rfl
  · exact .refl ctx

theorem sendStatus_mute (ctx : Ctx) (code : Nat) : Mute ctx (ctx.sendStatus code) :=
  ⟨rfl, fun h => h⟩

theorem sendCoded_mute (ctx : Ctx) (head : List Byte) : Mute ctx (ctx.sendCoded head).2 := by
  unfold sendCoded
  dsimp only
  split <;> exact ⟨rfl, fun h => h⟩

theorem encodeLoop_mute (script : List FilterOut) (ctx : Ctx) (op : FilterOp)
    (head : Option (List Byte)) (input : List Byte) :
    Mute ctx (encodeLoop script ctx op head input).2.1 := by
  induction script generalizing ctx head input with
  | nil => exact ⟨rfl, fun h => h⟩
  | cons r script ih =>
    unfold encodeLoop
    dsimp only
    split
    · exact ⟨rfl, fun h => h⟩
    split
    · exact ⟨rfl, fun h => h⟩
    split
    · split
      · exact ⟨rfl, fun h => h⟩
      · split
        · exact ((sendCoded_mute _ _).trans (fail_mute _)).behind rfl rfl
        · exact ((sendCoded_mute _ _).trans (ih ..)).behind rfl rfl
    split
    · exact ⟨rfl, fun h => h⟩
    · exact (ih ..).behind rfl rfl

theorem encode_mute (ctx : Ctx) (op : FilterOp) (head : Option (List Byte)) :
    Mute ctx (ctx.encode op head).2.1 := encodeLoop_mute ..

theorem mute_of_encode {op : FilterOp} {head head' : Option (List Byte)}
    (h : ctx.encode op head = (ok, ctx', head')) : Mute ctx ctx' := by
  have he := encode_mute ctx op head
  rwa [h] at he

theorem startHead_mute (ctx : Ctx) (final coding : Bool) :
    Mute ctx (ctx.startHead final coding).2 := by
  unfold startHead
  dsimp only
  split
  · exact ⟨rfl, fun h => by simp [fail, sendStatus, h]⟩
  · exact ⟨rfl, fun h => by simp [h]⟩

theorem setSw_mute (ctx : Ctx) (coding : Bool) (pw : Pipewriter) : Mute ctx (ctx.setSw coding pw) := by
  cases coding <;> exact ⟨rfl, fun h => h⟩

theorem clip_mute (ctx : Ctx) (coding : Bool) (extra : List Byte) :
    Mute ctx (ctx.clip coding extra).1 := by
  unfold clip
  split
  · exact setSw_mute ..
  · exact .refl ctx

theorem sendFrame_mute (ctx : Ctx) (final coding : Bool) (head extra : List Byte) :
    Mute ctx (ctx.sendFrame final coding head extra).2 := by
  have hc := clip_mute ctx coding extra
  unfold sendFrame
  generalize ctx.clip coding extra = r at hc
  obtain ⟨ctx', extra', overran⟩ := r
  dsimp only at hc ⊢
  have hs (pw : Pipewriter) (sock : Socket) (n : Nat) : Mute ctx { ctx'.setSw coding pw with
      sock := sock, res := { ctx'.res with bodySent := n } } :=
    hc.trans ((setSw_mute ctx' coding pw).trans ⟨rfl, by cases coding <;> exact fun h => h⟩)
  split
  · exact (hs ..).trans (fail_mute _)
  · exact hs ..

theorem sendBodyless_mute (ctx : Ctx) (head : List Byte) : Mute ctx (ctx.sendBodyless head).2 := by
  unfold sendBodyless
  dsimp only
  split
  · exact ⟨rfl, fun h => h⟩
  · split <;> exact ⟨rfl, fun h => h⟩

theorem flushBody_mute (ctx : Ctx) (kind : FlushKind) (coding whole : Bool)
    (head extra : List Byte) : Mute ctx (ctx.flushBody kind coding whole head extra).2 := by
  unfold flushBody
  split
  · exact sendBodyless_mute ..
  split
  · dsimp only
    split
    · rename_i hr
      exact mute_of_encode hr
    · rename_i hr
      exact (mute_of_encode hr).trans (sendFrame_mute ..)
  · exact sendFrame_mute ..

theorem flushHead_mute (ctx : Ctx) (kind : FlushKind) (extra : List Byte) :
    Mute ctx (ctx.flushHead kind extra).2 := by
  unfold flushHead
  dsimp only
  generalize (ctx.filter.isSome && !ctx.headOnly) = coding
  generalize (coding && !ctx.res.headSent && decide (kind = FlushKind.final)) = whole
  have h1 : Mute ctx (if coding = true ∧ ¬ ctx.res.headSent = true ∧ ¬ whole = true then
      { ctx with res := { ctx.res with hasLength := false } } else ctx) := by
    split
    · exact ⟨rfl, fun h => h⟩
    · exact .refl ctx
  generalize (if coding = true ∧ ¬ ctx.res.headSent = true ∧ ¬ whole = true then
      { ctx with res := { ctx.res with hasLength := false } } else ctx) = ctx₁ at h1
  have h2 : Mute ctx (if whole = true then ctx₁.encode .finish none
      else (true, ctx₁, none)).2.1 := by
    split
    · exact h1.trans (encode_mute ..)
    · exact h1
  generalize (if whole = true then ctx₁.encode .finish none else (true, ctx₁, none)) = r at h2
  obtain ⟨_ | _, ctx₂, _⟩ := r
  · exact h2
  · dsimp only at h2 ⊢
    split
    · exact h2.trans (flushBody_mute ..)
    · have h3 := h2.trans (startHead_mute ctx₂ (decide (kind = FlushKind.final)) coding)
      generalize ctx₂.startHead (decide (kind = FlushKind.final)) coding = r at h3
      obtain ⟨_ | head, ctx₃⟩ := r
      · exact h3
      · exact h3.trans (flushBody_mute ..)

theorem flushWith_mute (ctx : Ctx) (kind : FlushKind) (extra : List Byte) :
    Mute ctx (ctx.flushWith kind extra).2 := by
  unfold flushWith
  split
  · exact .refl ctx
  · exact (callOnHead_mute ..).trans (flushHead_mute ..)

theorem writeLoop_mute (turns : Nat) (ctx : Ctx) (src : List Byte) :
    Mute ctx (writeLoop turns ctx src).2 := by
  induction turns generalizing ctx src with
  | zero => exact .refl ctx
  | succ turns ih =>
    unfold writeLoop
    split
    · exact .refl ctx
    split
    · have hf := flushWith_mute ctx .full []
      unfold flush
      generalize ctx.flushWith .full [] = r at hf
      obtain ⟨_ | _, ctx'⟩ := r
      · exact hf
      · exact hf.trans (ih ..)
    · exact (ih ..).behind rfl rfl

theorem write_mute (ctx : Ctx) (data : List Byte) : Mute ctx (ctx.write data).2 := by
  unfold write
  split
  · exact .refl ctx
  split
  · exact flushWith_mute ..
  · exact writeLoop_mute ..

theorem reserve_mute (ctx : Ctx) (n : Nat) : Mute ctx (ctx.reserve n).2 := by
  unfold reserve
  split
  · exact .refl ctx
  split
  · have hf := flushWith_mute ctx .full []
    unfold flush
    generalize ctx.flushWith .full [] = r at hf
    obtain ⟨_ | _, ctx'⟩ := r <;> exact hf
  · exact .refl ctx

theorem reserveOp_mute (ctx : Ctx) (n : Nat) (data : List Byte) :
    Mute ctx (ctx.reserveOp n data) := by
  have hr := reserve_mute ctx n
  unfold reserveOp
  generalize ctx.reserve n = r at hr
  obtain ⟨_ | off, ctx'⟩ := r
  · exact hr
  · exact hr.trans ⟨rfl, fun h => h⟩

theorem setOnHead_mute (ctx : Ctx) (fn : Nat → Bool → List HeadOp) :
    Mute ctx (ctx.setOnHead fn).2 := by
  unfold setOnHead
  split
  · exact .refl ctx
  · exact ⟨rfl, fun h => h⟩

theorem finish_mute (ctx : Ctx) : Mute ctx ctx.finish.2 := by
  unfold finish
  split
  · exact .refl ctx
  split
  rename_i ok ctx' hr
  have hm : Mute ctx ctx' := by
    rw [show ctx' = (ok, ctx').2 from rfl, ← hr]
    split
    · exact flushWith_mute ..
    split
    · split
      · exact ⟨rfl, fun h => h⟩
      · dsimp only
        split <;> exact ⟨rfl, fun h => h⟩
    · exact .refl ctx
  split
  · exact hm
  · exact hm.trans ⟨rfl, fun h => by simp [h]⟩

end Ctx

end Ioxd.Http
