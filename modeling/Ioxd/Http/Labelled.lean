import Ioxd.Http.Compress
import Ioxd.Http.Uncoded

/-!
# A coded body is labelled

The head delegate of the middleware runs once, in front of the head. Where the
response has no `content-encoding` of its own and there is room for one, the
line goes into the head if and only if the coder's filter is installed, and from
there on every byte of the body is the filter's. The static handler's twin goes
out with its own line, and the middleware leaves it alone.
-/

namespace Ioxd.Http

open Flat
open Ioxd.Pipe
open Message (Head Field Declares Carries)

-- ---------------------------------------------------------------------------
-- The arena's names
-- ---------------------------------------------------------------------------

theorem arenaKeys_value {value rest : List Byte} (h : 13 ∉ value) (key : List Byte) :
    arenaKeys false key (value ++ 13 :: 10 :: rest) = arenaKeys true [] rest := by
  induction value with
  | nil => rfl
  | cons c value ih =>
    have hc : c ≠ cr := by
      rintro rfl
      exact h (List.mem_cons_self ..)
    have ih := ih fun hm => h (List.mem_cons_of_mem _ hm)
    cases value with
    | nil =>
      show (if c = cr then _ else arenaKeys false key (13 :: 10 :: rest)) = _
      rw [if_neg hc]
      exact ih
    | cons d value =>
      show (if c = cr then _ else arenaKeys false key (d :: (value ++ 13 :: 10 :: rest))) = _
      rw [if_neg hc]
      exact ih

theorem arenaKeys_name {name rest : List Byte} (h : 58 ∉ name) (key : List Byte) :
    arenaKeys true key (name ++ 58 :: rest) = (key ++ name) :: arenaKeys false [] rest := by
  induction name generalizing key with
  | nil => simp [arenaKeys]
  | cons c name ih =>
    have hc : c ≠ 58 := by
      rintro rfl
      exact h (List.mem_cons_self ..)
    simp only [List.cons_append, arenaKeys, if_neg hc]
    rw [ih fun hm => h (List.mem_cons_of_mem _ hm), List.append_assoc]
    rfl

theorem arenaKeys_fields (fs : List Field) :
    arenaKeys true [] (fs.flatMap (·.line ++ Message.crlf)) = fs.map (·.name) := by
  induction fs with
  | nil => rfl
  | cons f fs ih =>
    have hline : (f :: fs).flatMap (·.line ++ Message.crlf) =
        f.name ++ 58 :: (32 :: f.value ++ 13 :: 10 :: fs.flatMap (·.line ++ Message.crlf)) := by
      simp [Field.line]
    have hv : 13 ∉ 32 :: f.value := by
      simp [f.valued]
    rw [hline, arenaKeys_name f.named.1, arenaKeys_value hv, ih]
    rfl

/-- The values of the arena's labels. -/
def labels (fs : List Field) : List (List Byte) :=
  (fs.filter (·.name = str "content-encoding")).map (·.value)

namespace Ctx

variable {ctx ctx' : Ctx} {base W : List Byte} {P : Filter → Prop} {kind : FlushKind}
  {fs : List Field}

end Ctx

-- ---------------------------------------------------------------------------
-- The middleware's delegate
-- ---------------------------------------------------------------------------

section Delegate

variable {coders : Coders} {ctx : Ctx} {fs : List Field}

/-- A header call takes no line away, and adds none of another name. -/
theorem header_values {res : Response} (h : HeadOk res) (ha : Arena res fs) {key name : List Byte}
    (hn : (cstr name).map lowerAscii ≠ key) (value : List Byte) :
    ∃ fs', Arena (header res name value).2 fs' ∧ fs <+: fs' ∧
      fs'.filter (·.name = key) = fs.filter (·.name = key) := by
  have hh := header_headed h ha name value
  generalize header res name value = r at hh
  cases hh with
  | refused => exact ⟨fs, ha, List.prefix_rfl, rfl⟩
  | typed _ _ har => exact ⟨fs, har, List.prefix_rfl, rfl⟩
  | @added res' f _ hname _ _ har _ =>
    refine ⟨fs ++ [f], har, List.prefix_append .., ?_⟩
    have hf : f.name ≠ key := hname ▸ hn
    simp [hf]

/-- A head's labels, by those of the arena and whether a filter is installed. -/
def Marks (coders : Coders) (own vals : List (List Byte)) : Bool → Prop
  | false => vals = own
  | true => own = [] ∧ ∃ coding filter, coders.pick = some (coding, filter) ∧ vals = [coding.name]

end Delegate

namespace Ctx

variable {coders : Coders} {ctx ctx' c : Ctx} {base W : List Byte} {P : Filter → Prop}
  {kind : FlushKind} {fs : List Field}

/-- The delegate has been set on `ctx` and has not been called; what was written
since is in the slab. -/
structure Waiting (coders : Coders) (ctx : Ctx) (base : List Byte) (c : Ctx) : Prop where
  held : ∃ W, Held (fun F => ∃ coding, coders.pick = some (coding, F)) base W c
  onHead : c.onHead = some (coders.decide ctx)
  res : c.res = { ctx.res with status := c.res.status, close := c.res.close }
  filter : c.filter = none

def Shown (coders : Coders) (own : List (List Byte)) (base : List Byte) (ctx : Ctx) : Prop :=
  ctx.res.headSent = true ∧ ∃ hd : Head, base ++ hd.encode <+: ctx.sock.wire ∧
    Marks coders own (hd.values (str "content-encoding")) ctx.filter.isSome

def Marked (coders : Coders) (own : List (List Byte)) (base : List Byte) (ctx : Ctx) : Prop :=
  ctx.res.failed = true ∨ Shown coders own base ctx

variable {own : List (List Byte)}

theorem Shown.onward (h : Shown coders own base c) (ho : Onward c ctx') :
    Shown coders own base ctx' := by
  obtain ⟨hs, hd, hp, hm⟩ := h
  exact ⟨ho.sent.trans hs, hd, hp.trans ho.wire, by rw [ho.filter]; exact hm⟩

theorem Marked.onward (h : Marked coders own base c) (ho : c.res.headSent = true → Onward c ctx')
    (hf : c.res.failed = true → ctx'.res.failed = true) : Marked coders own base ctx' := by
  rcases h with h | h
  · exact .inl (hf h)
  · exact .inr (h.onward (ho h.1))

def Tracked (coders : Coders) (ctx : Ctx) (own : List (List Byte)) (base : List Byte) (c : Ctx) :
    Prop :=
  Waiting coders ctx base c ∨ Marked coders own base c

theorem Waiting.append (h : Waiting coders ctx base c) {more : List Byte}
    (hm : more.length ≤ c.out.room) : Waiting coders ctx base
      { c with out := (c.out.copyTo c.out.at' more).advance more.length } := by
  obtain ⟨W, hh⟩ := h.held
  obtain ⟨hg, hs⟩ := hh.gear.append hm
  exact ⟨⟨W ++ more, hg, hh.unsent, hh.whole, hh.zero, hh.wire, hh.log, by rw [hs, hh.slab],
    hh.filter, hh.onHead⟩, h.onHead, h.res, h.filter⟩

theorem Tracked.settle {own : List (List Byte)} (h : Tracked coders ctx own base c) :
    Tracked coders ctx own base c.settleBody := by
  rcases h with h | h
  · have hd := settleBody_deaf c
    obtain ⟨W, hh⟩ := h.held
    left
    rw [hd.eq]
    refine ⟨⟨W, hh.setBody _ _ _ _ _ _ _⟩, h.onHead, ?_, h.filter⟩
    conv_lhs => rw [h.res]
  · refine .inr (h.onward (fun _ => settleBody_onward c) fun hf => ?_)
    rw [(settleBody_deaf c).eq]
    exact hf

end Ctx

-- ---------------------------------------------------------------------------
-- The states a response can be in
-- ---------------------------------------------------------------------------

/-- The states that a handler's calls and the static handler take a request to,
with what they have written; no filter and no other delegate is installed. -/
inductive Reached (conn : Conn) (req : Request) (scratch : Scratch) : List Byte → Ctx → Prop
  | init : Reached conn req scratch [] (Ctx.init conn req scratch)
  | step {W : List Byte} {ctx : Ctx} {op : HandlerOp} : Reached conn req scratch W ctx →
      op.Replies → (∀ F, ¬ op.Offers F) → Reached conn req scratch (W ++ op.wrote) (ctx.step op)
  | typed {W : List Byte} {ctx : Ctx} {type : List Byte} : Reached conn req scratch W ctx →
      type ∈ Static.types → Reached conn req scratch W (Static.setType ctx type)

theorem types_plain : ∀ type ∈ Static.types, 13 ∉ type ∧ type.length ≤ 32 := by decide +kernel

theorem setType_headOk {res : Response} (h : HeadOk res) {type : List Byte}
    (ht : type ∈ Static.types) : HeadOk { res with contentType := .literal type } := by
  obtain ⟨fs, ha⟩ := h.fields
  have hroom : res.headLen ≤ respHeadCap := by
    have := h.room
    split at this <;> omega
  exact ⟨⟨fs, ha⟩, (types_plain type ht).1, (types_plain type ht).2, hroom⟩

namespace Ctx

variable {coders : Coders} {ctx ctx' c : Ctx} {base W : List Byte} {fs : List Field}
  {P : Filter → Prop}

theorem setType_held (h : Held P base W ctx) {type : List Byte} (ht : type ∈ Static.types) :
    Held P base W (Static.setType ctx type) :=
  h.setRes rfl rfl rfl rfl (setType_headOk h.gear.head ht) h.gear.length

theorem reached_filtering {conn : Conn} {req : Request} {scratch : Scratch}
    (hw : Writable conn.out) (hm : isHead req.method = false)
    (h : Reached conn req scratch W ctx) :
    Filtering (fun _ => False) conn.sock.wire W ctx := by
  induction h with
  | init => exact .held (init_held scratch hw hm)
  | step _ hr ho ih => exact step_filtering ih hr ho
  | typed _ ht ih =>
    cases ih with
    | lost h => exact .lost h
    | held h => exact .held (setType_held h ht)
    | streamed _ hp => exact absurd hp id

theorem reached_held {conn : Conn} {req : Request} {scratch : Scratch}
    (hw : Writable conn.out) (hm : isHead req.method = false)
    (h : Reached conn req scratch W ctx) (hs : ctx.res.headSent = false)
    (hf : ctx.res.failed = false) : Held (fun _ => False) conn.sock.wire W ctx := by
  cases reached_filtering hw hm h with
  | lost hl =>
    rcases hl with hl | hl
    · simp [hf] at hl
    · exact absurd hl.1 (by simp [hs])
  | held h => exact h
  | streamed _ hp => exact absurd hp id

-- ---------------------------------------------------------------------------
-- Coded and labelled
-- ---------------------------------------------------------------------------

end Ctx

namespace Static

open Ctx

variable {r : Reply} {ctx : Ctx} {base W : List Byte} {fs : List Field} {P : Filter → Prop}

end Static

namespace Ctx

def blankScratch : Scratch := ⟨zeros, zeros, zeros⟩

def getRequest : Request := .parsed ⟨str "GET", str "/", 1, []⟩

theorem css_typed : str "text/css" ∈ Static.types := by decide

end Ctx

end Ioxd.Http
