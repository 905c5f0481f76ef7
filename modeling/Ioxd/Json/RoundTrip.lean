import Ioxd.Json.Misuse
import Ioxd.Lib.JsonReads
import Ioxd.Http.ReplyFidelity

/-!
# JSON round trips

The calls that write a tree, whatever the sink: each returns true, the text is
that of the tree wherever a flush falls, and the parser reads the tree back.
-/

namespace Ioxd.Json

open Ioxd.Pipe (Byte Pipewriter Socket)
open Ioxd.Http (str)
open JsonText (Datum Decimal Reads NameReads MemberReads joined)

namespace Writer

-- ---------------------------------------------------------------------------
-- Trees
-- ---------------------------------------------------------------------------

/-- The numbers of a tree, by the call that writes them. -/
inductive Leaf
  | int (v : Int64)
  | uint (v : UInt64)

def Leaf.decimal : Leaf → Decimal
  | int v => ⟨v.toInt, 0⟩
  | uint v => ⟨v.toNat, 0⟩

mutual

def calls : Datum Leaf → List Call
  | .null => [.null]
  | .bool b => [.bool b]
  | .num (.int v) => [.int v]
  | .num (.uint v) => [.uint v]
  | .str s => [.string s]
  | .arr xs => .array :: itemCalls xs ++ [.endLevel]
  | .obj ms => .object :: memberCalls ms ++ [.endLevel]

def itemCalls : List (Datum Leaf) → List Call
  | [] => []
  | x :: xs => calls x ++ itemCalls xs

def memberCalls : List (List Byte × Datum Leaf) → List Call
  | [] => []
  | m :: ms => .key m.1 :: calls m.2 ++ memberCalls ms

end

mutual

/-- How many levels a tree opens. -/
def depthOf : Datum Leaf → Nat
  | .arr xs => itemDepth xs + 1
  | .obj ms => memberDepth ms + 1
  | _ => 0

def itemDepth : List (Datum Leaf) → Nat
  | [] => 0
  | x :: xs => max (depthOf x) (itemDepth xs)

def memberDepth : List (List Byte × Datum Leaf) → Nat
  | [] => 0
  | m :: ms => max (depthOf m.2) (memberDepth ms)

end

mutual

/-- The tree as a parser knows it: the same, with the values of its numbers. -/
def parsed : Datum Leaf → Datum Decimal
  | .null => .null
  | .bool b => .bool b
  | .num n => .num n.decimal
  | .str s => .str s
  | .arr xs => .arr (itemsParsed xs)
  | .obj ms => .obj (membersParsed ms)

def itemsParsed : List (Datum Leaf) → List (Datum Decimal)
  | [] => []
  | x :: xs => parsed x :: itemsParsed xs

def membersParsed : List (List Byte × Datum Leaf) → List (List Byte × Datum Decimal)
  | [] => []
  | m :: ms => (m.1, parsed m.2) :: membersParsed ms

end

mutual

def textOf : Datum Leaf → List Byte
  | .null => str "null"
  | .bool b => if b then str "true" else str "false"
  | .num (.int v) => intText v
  | .num (.uint v) => digits v.toNat
  | .str s => quoted s
  | .arr xs => 91 :: joined (itemTexts xs) ++ [93]
  | .obj ms => 123 :: joined (Level.members (memberTexts ms)) ++ [125]

def itemTexts : List (Datum Leaf) → List (List Byte)
  | [] => []
  | x :: xs => textOf x :: itemTexts xs

def memberTexts : List (List Byte × Datum Leaf) → List (List Byte × List Byte)
  | [] => []
  | m :: ms => (quoted m.1, textOf m.2) :: memberTexts ms

end

-- ---------------------------------------------------------------------------
-- The document of a tree
-- ---------------------------------------------------------------------------

theorem run_scalar {d : Doc} (hl : d.lead ≠ none) {c : Call} {v : List Byte}
    (hstep : d.step c = if d.lead ≠ none then some (d.add v) else none) (cs : List Call) :
    d.run (c :: cs) = (d.add v).run cs := by
  rw [Doc.run, hstep, if_pos hl]
  rfl

mutual

/-- The calls of a tree add its text where a value has its place. -/
theorem run_calls (t : Datum Leaf) {d : Doc} (hl : d.lead ≠ none)
    (hd : d.open'.length + depthOf t ≤ jsonDepth) (cs : List Call) :
    d.run (calls t ++ cs) = (d.add (textOf t)).run cs := by
  cases t with
  | null => exact run_scalar hl rfl cs
  | bool b => exact run_scalar hl rfl cs
  | num n =>
    cases n with
    | int v => exact run_scalar hl rfl cs
    | uint v => exact run_scalar hl rfl cs
  | str s => exact run_scalar hl rfl cs
  | arr xs =>
    rw [depthOf] at hd
    have hlt : d.open'.length < jsonDepth := by omega
    rw [calls, List.cons_append, List.cons_append, List.append_assoc, Doc.run,
      show d.step .array = some (d.push (.array [])) from if_pos ⟨hlt, hl⟩, Option.bind_some,
      Doc.push, run_items xs (by omega)]
    rfl
  | obj ms =>
    rw [depthOf] at hd
    have hlt : d.open'.length < jsonDepth := by omega
    rw [calls, List.cons_append, List.cons_append, List.append_assoc, Doc.run,
      show d.step .object = some (d.push (.object [] none)) from if_pos ⟨hlt, hl⟩, Option.bind_some,
      Doc.push, run_members ms (by omega)]
    rfl

theorem run_items (xs : List (Datum Leaf)) {root : Option (List Byte)} {ls : List Level}
    {ys : List (List Byte)} (hd : ls.length + (itemDepth xs + 1) ≤ jsonDepth) (cs : List Call) :
    Doc.run ⟨root, .array ys :: ls⟩ (itemCalls xs ++ cs) =
      Doc.run ⟨root, .array (ys ++ itemTexts xs) :: ls⟩ cs := by
  cases xs with
  | nil => rw [itemCalls, itemTexts, List.append_nil, List.nil_append]
  | cons x xs =>
    rw [itemDepth] at hd
    rw [itemCalls, List.append_assoc, run_calls x (by simp [Doc.lead, Level.lead])
      (by rw [List.length_cons]; omega)]
    show Doc.run ⟨root, .array (ys ++ [textOf x]) :: ls⟩ _ = _
    rw [run_items xs (by omega), itemTexts, List.append_assoc]
    rfl

theorem run_members (ms : List (List Byte × Datum Leaf)) {root : Option (List Byte)}
    {ls : List Level} {ys : List (List Byte × List Byte)}
    (hd : ls.length + (memberDepth ms + 1) ≤ jsonDepth) (cs : List Call) :
    Doc.run ⟨root, .object ys none :: ls⟩ (memberCalls ms ++ cs) =
      Doc.run ⟨root, .object (ys ++ memberTexts ms) none :: ls⟩ cs := by
  cases ms with
  | nil => rw [memberCalls, memberTexts, List.append_nil, List.nil_append]
  | cons m ms =>
    rw [memberDepth] at hd
    rw [memberCalls, List.cons_append, List.cons_append, List.append_assoc]
    show Doc.run ⟨root, .object ys (some (quoted m.1)) :: ls⟩ _ = _
    rw [run_calls m.2 (by simp [Doc.lead, Level.lead]) (by rw [List.length_cons]; omega)]
    show Doc.run ⟨root, .object (ys ++ [(quoted m.1, textOf m.2)]) none :: ls⟩ _ = _
    rw [run_members ms (by omega), memberTexts, List.append_assoc]
    rfl

end

mutual

theorem calls_short (t : Datum Leaf) : ∀ c ∈ calls t, Short c := by
  cases t with
  | null => simp [calls, Short]
  | bool b => simp [calls, Short]
  | num n => cases n <;> simp [calls, Short]
  | str s => simp [calls, Short]
  | arr xs =>
    have := itemCalls_short xs
    simpa [calls, Short, or_imp, forall_and] using this
  | obj ms =>
    have := memberCalls_short ms
    simpa [calls, Short, or_imp, forall_and] using this

theorem itemCalls_short (xs : List (Datum Leaf)) : ∀ c ∈ itemCalls xs, Short c := by
  cases xs with
  | nil => simp [itemCalls]
  | cons x xs =>
    intro c hc
    rcases List.mem_append.mp hc with hc | hc
    · exact calls_short x c hc
    · exact itemCalls_short xs c hc

theorem memberCalls_short (ms : List (List Byte × Datum Leaf)) :
    ∀ c ∈ memberCalls ms, Short c := by
  cases ms with
  | nil => simp [memberCalls]
  | cons m ms =>
    intro c hc
    rcases List.mem_append.mp hc with hc | hc
    · rcases List.mem_cons.mp hc with rfl | hc
      · trivial
      · exact calls_short m.2 c hc
    · exact memberCalls_short ms c hc

end

-- ---------------------------------------------------------------------------
-- The text is read back
-- ---------------------------------------------------------------------------

theorem digitsValue_concat (ds : List Byte) (c : Byte) :
    JsonText.digitsValue (ds ++ [c]) = 10 * JsonText.digitsValue ds + (c.toNat - 48) := by
  simp [JsonText.digitsValue]

theorem digitsValue_putDigits {size v : Nat} (h : v < 10 ^ size) :
    JsonText.digitsValue (Http.putDigits 10 (fun d => UInt8.ofNat (48 + d)) size v) = v := by
  have hdigit : ∀ d < 10, (UInt8.ofNat (48 + d)).toNat - 48 = d := by decide
  induction size generalizing v with
  | zero =>
    rw [Nat.pow_zero] at h
    obtain rfl : v = 0 := by omega
    rfl
  | succ size ih =>
    unfold Http.putDigits
    rw [Nat.pow_succ] at h
    split
    · rw [digitsValue_concat, hdigit _ (by omega), show JsonText.digitsValue [] = 0 from rfl]
      omega
    · rw [digitsValue_concat, hdigit _ (by omega), ih (by omega)]
      omega

theorem digitsValue_digits {v : Nat} (h : v ≤ 2 ^ 64) : JsonText.digitsValue (digits v) = v :=
  digitsValue_putDigits (by omega)

theorem reads_int (v : Int64) : Reads (intText v) (.num ⟨v.toInt, 0⟩) := by
  have hle := Doc.magnitude_le v
  have hw := Doc.digits_whole (Nat.le_trans hle (by omega))
  have hv := digitsValue_digits (Nat.le_trans hle (by omega))
  unfold intText
  split
  · rename_i hneg
    have h := @Reads.number _ true hw
    rw [hv, if_pos rfl] at h
    have : -(magnitude v.toInt : Int) = v.toInt := by
      unfold magnitude
      rw [if_pos hneg]
      omega
    rw [this] at h
    exact h
  · rename_i hneg
    have h := @Reads.number _ false hw
    rw [hv, if_neg (by simp), if_neg (by simp)] at h
    have : (magnitude v.toInt : Int) = v.toInt := by
      unfold magnitude
      rw [if_neg hneg]
      omega
    rw [this] at h
    exact h

theorem reads_uint (v : UInt64) : Reads (digits v.toNat) (.num ⟨v.toNat, 0⟩) := by
  have hlt := v.toNat_lt
  have h := @Reads.number _ false (@Doc.digits_whole v.toNat (by omega))
  rw [digitsValue_digits (by omega), if_neg (by simp), if_neg (by simp)] at h
  exact h

theorem chars_unescape {e x : Byte} (hx : JsonText.unescape e = some x) (he : e ≠ 117)
    {s v r : List Byte} (h : JsonText.chars s = some (v, r)) :
    JsonText.chars (92 :: e :: s) = some (x :: v, r) := by
  rw [JsonText.chars.eq_def]
  simp only [show ¬ (92 : Byte) = 34 by decide, if_false, if_true, if_neg he, hx, h]
  rfl

theorem chars_escape {c : Byte} (hc : needsEscape c = true) {s v r : List Byte}
    (h : JsonText.chars s = some (v, r)) :
    JsonText.chars (escape c ++ s) = some (c :: v, r) := by
  have hhex : ∀ n < 16, JsonText.hexValue (hexDigit n) = some n := by decide
  have hlt := c.toNat_lt
  unfold escape
  split
  · rename_i hx
    subst hx
    exact chars_unescape rfl (by decide) h
  split
  · rename_i hx
    subst hx
    exact chars_unescape rfl (by decide) h
  split
  · rename_i hx
    subst hx
    exact chars_unescape rfl (by decide) h
  split
  · rename_i hx
    subst hx
    exact chars_unescape rfl (by decide) h
  split
  · rename_i hx
    subst hx
    exact chars_unescape rfl (by decide) h
  split
  · rename_i hx
    subst hx
    exact chars_unescape rfl (by decide) h
  split
  · rename_i hx
    subst hx
    exact chars_unescape rfl (by decide) h
  · rename_i h1 h2 h3 h4 h5 h6 h7
    have h32 : c.toNat < 32 := by
      simp only [needsEscape, Bool.or_eq_true, decide_eq_true_eq, beq_iff_eq] at hc
      rcases hc with (hc | hc) | hc
      · exact UInt8.lt_iff_toNat_lt.mp hc
      · exact absurd hc h1
      · exact absurd hc h2
    have h48 : JsonText.hexValue 48 = some 0 := by decide
    have hu : JsonText.utf8 (4096 * 0 + 256 * 0 + 16 * (c.toNat / 16) + c.toNat % 16) = [c] := by
      unfold JsonText.utf8
      rw [show 4096 * 0 + 256 * 0 + 16 * (c.toNat / 16) + c.toNat % 16 = c.toNat by omega,
        if_pos (by omega), UInt8.ofNat_toNat]
    simp only [List.cons_append, List.nil_append]
    rw [JsonText.chars.eq_def]
    simp only [show ¬ (92 : Byte) = 34 by decide, if_false, if_true, h48, hhex _ (show c.toNat / 16 < 16 by omega),
      hhex _ (show c.toNat % 16 < 16 by omega), h, hu, Option.map_some]
    rfl

theorem chars_quoted (s : List Byte) (r : List Byte) :
    JsonText.chars (escaped s ++ 34 :: r) = some (s, r) := by
  induction s with
  | nil =>
    show JsonText.chars (34 :: r) = _
    rw [JsonText.chars.eq_def]
    rfl
  | cons c s ih =>
    rw [show c :: s = [c] ++ s from rfl, escaped_append, List.append_assoc]
    by_cases hc : needsEscape c = true
    · rw [show escaped [c] = escape c by simp [escaped, hc]]
      exact chars_escape hc ih
    · rw [escaped_clean (by simpa using hc)]
      simp only [needsEscape, Bool.or_eq_true, decide_eq_true_eq, beq_iff_eq, not_or] at hc
      obtain ⟨⟨h1, h2⟩, h3⟩ := hc
      rw [List.singleton_append, JsonText.chars.eq_def]
      simp only [if_neg h2, if_neg h3, if_neg h1, ih]
      rfl

mutual

theorem reads_text (t : Datum Leaf) : Reads (textOf t) (parsed t) := by
  cases t with
  | null => exact .null
  | bool b =>
    cases b with
    | true => exact .isTrue
    | false => exact .isFalse
  | num n =>
    cases n with
    | int v => exact reads_int v
    | uint v => exact reads_uint v
  | str s => exact .string (chars_quoted s)
  | arr xs => exact .arr (reads_items xs)
  | obj ms => exact .obj (reads_members ms)

theorem reads_items (xs : List (Datum Leaf)) :
    List.Forall₂ Reads (itemTexts xs) (itemsParsed xs) := by
  cases xs with
  | nil => exact .nil
  | cons x xs => exact .cons (reads_text x) (reads_items xs)

theorem reads_members (ms : List (List Byte × Datum Leaf)) :
    List.Forall₂ MemberReads (memberTexts ms) (membersParsed ms) := by
  cases ms with
  | nil => exact .nil
  | cons m ms =>
    exact .cons ⟨⟨escaped m.1, rfl, chars_quoted m.1⟩, reads_text m.2⟩ (reads_members ms)

end

-- ---------------------------------------------------------------------------
-- The sinks
-- ---------------------------------------------------------------------------

theorem memory_sure :
    Sink.memory.Lawful (fun b m W => m.null = false ∧ m.bytes = W ∧ W.length + b ≤ m.cap) True where
  sound := fun _ _ => rfl
  reserve := by
    rintro b m W n ⟨h1, h2, h3⟩ - hs hr
    have := (hs trivial).1
    have hroom : Sink.memory.room m = m.cap - m.bytes.length := if_neg (by simp [h1])
    rcases hr with hr | hr
    · rw [hroom, h2] at hr
      omega
    · cases hr
  write := by
    rintro b m W data ⟨h1, h2, h3⟩ hd -
    have hroom : Sink.memory.room m = m.cap - m.bytes.length := if_neg (by simp [h1])
    rw [hroom, h2] at hd
    refine ⟨h1, congrArg (· ++ data) h2, ?_⟩
    show (W ++ data).length + (b - data.length) ≤ m.cap
    rw [List.length_append]
    omega

/-- The writer of a pipe that its handler writes to, with a slab that takes a run
and a socket that takes what it is given. -/
structure Taking (p : Pipewriter × Socket) : Prop where
  ok : p.1.Ok
  head : p.1.head = 0
  tail : p.1.tail = 0
  able : p.1.failed = false
  cap : runMax ≤ p.1.cap
  sound : p.2.Sound

theorem writeTail_eq (pw : Pipewriter) {data : List Byte} (h : data.length ≤ pw.room) :
    writeTail pw data = (pw.copyTo pw.at' data).advance data.length := by
  unfold writeTail Pipewriter.advance
  have : (pw.copyTo pw.at' data).room = pw.room := rfl
  rw [this, Nat.min_eq_left h]

theorem pipe_sure :
    Sink.pipe.Lawful (fun _ p W => Taking p ∧ p.2.wire ++ p.1.slab = W) True where
  sound := fun h _ => h.1.able
  reserve := by
    rintro b ⟨pw, sock⟩ W n ⟨ht, hw⟩ - hs hr
    obtain ⟨-, hn⟩ := hs trivial
    have hroom : pw.room < n := hr.resolve_right fun hx => by
      rw [show Sink.pipe.broken (pw, sock) = pw.failed from rfl, show pw.failed = false from
        ht.able] at hx
      cases hx
    have hle : n ≤ pw.cap := hn.trans ht.cap
    unfold Pipewriter.room at hroom
    left
    have ho := Pipewriter.flushWith_outcome ht.ok ht.able sock []
    show ∃ s', ((Pipewriter.reserve pw sock n).1.isSome, (Pipewriter.reserve pw sock n).2) =
      (true, s') ∧ _
    unfold Pipewriter.reserve
    rw [if_neg (by rw [show pw.failed = false from ht.able]; simp; omega), if_pos (by omega),
      Pipewriter.flush]
    generalize pw.flushWith sock [] = r at ho
    cases ho with
    | sent hnw hd =>
      refine ⟨_, rfl, ⟨⟨Pipewriter.reset_ok ht.ok, rfl, rfl, ht.able, ht.cap, hd.sound ht.sound⟩,
        ?_⟩, hle⟩
      have hp : pw.pending = pw.slab := by
        unfold Pipewriter.pending Pipewriter.slab
        rw [show pw.head = 0 from ht.head, show pw.tail = 0 from ht.tail]
        simp
      rename_i sock'
      show sock'.wire ++ pw.reset.slab = W
      rw [hd.wire, Pipewriter.slab_reset, hp, List.append_nil, List.append_nil]
      exact hw
    | wrapped hx =>
      have := hx.2
      simp at this
    | cut hc => exact absurd ht.sound hc.unsound
  write := by
    rintro b ⟨pw, sock⟩ W data ⟨ht, hw⟩ hd -
    have hd : data.length ≤ pw.room := hd
    obtain ⟨hok, hslab, -⟩ := Pipewriter.append_spec ht.ok ht.tail hd
    rw [← writeTail_eq pw hd] at hok hslab
    refine ⟨⟨hok, ht.head, ht.tail, ht.able, ht.cap, ht.sound⟩, ?_⟩
    show sock.wire ++ (writeTail pw data).slab = _
    rw [hslab, ← List.append_assoc]
    exact congrArg (· ++ data) hw

open Http (Ctx) in
theorem reply_sure (base : List Byte) :
    Sink.reply.Lawful (fun b ctx W => Ctx.Going base W ctx ∧
      (ctx.res.hasLength = true → W.length + b ≤ ctx.res.contentLength)) True where
  sound := by
    rintro b ctx W ⟨hg, -⟩ -
    show (ctx.out.failed || ctx.res.failed) = false
    rw [hg.able, hg.live]
    rfl
  reserve := by
    rintro b ctx W n ⟨hg, hl⟩ - hs hr
    obtain ⟨-, hn⟩ := hs trivial
    have hroom : ctx.out.room < n := hr.resolve_right fun hx => by
      rw [show Sink.reply.broken ctx = (ctx.out.failed || ctx.res.failed) from rfl, hg.able,
        hg.live] at hx
      cases hx
    have hcap : n ≤ ctx.out.cap := by
      rw [hg.ready.cap]
      exact hn.trans (by decide)
    left
    have hres := Ctx.reserve_going hg hcap
    show ∃ s', ((Ctx.reserve ctx n).1.isSome, (Ctx.reserve ctx n).2) = (true, s') ∧ _
    generalize ctx.reserve n = r at hres
    cases hres with
    | @room ctx' hg' hr' h1 h2 =>
      exact ⟨ctx', rfl, ⟨hg', fun hx => h2.symm ▸ hl (h1 ▸ hx)⟩, hr'⟩
    | full hf h1 h2 =>
      obtain ⟨hd, -, hlt, -⟩ := hf.wire
      have := hl h1
      omega
  write := by
    rintro b ctx W data ⟨hg, hl⟩ hd hb
    have hd : data.length ≤ ctx.out.room := hd
    refine ⟨?_, fun hx => ?_⟩
    · show Ctx.Going base (W ++ data) { ctx with out := writeTail ctx.out data }
      rw [writeTail_eq _ hd]
      exact hg.append hd
    · have := hl hx
      have := hb trivial
      show (W ++ data).length + (b - data.length) ≤ ctx.res.contentLength
      rw [List.length_append]
      omega

-- ---------------------------------------------------------------------------
-- A whole tree
-- ---------------------------------------------------------------------------

variable {S : Type} {k : Sink S} {Holds : Nat → S → List Byte → Prop}

theorem step_second {d : Doc} {c : Call} (h : Second d c) : d.step c = none := by
  obtain ⟨h1, h2, h3⟩ := h
  have hl : d.lead = none := by
    unfold Doc.lead
    rw [h1]
    exact if_neg h2
  cases c with
  | object => exact if_neg fun hx => hx.2 hl
  | array => exact if_neg fun hx => hx.2 hl
  | endLevel => cases h3
  | key name => cases h3
  | string s => exact if_neg fun hx => hx hl
  | int v => exact if_neg fun hx => hx hl
  | uint v => exact if_neg fun hx => hx hl
  | bool b => exact if_neg fun hx => hx hl
  | null => exact if_neg fun hx => hx hl
  | number text =>
    cases text with
    | none => rfl
    | some t => exact if_neg fun hx => hx hl
  | raw json =>
    unfold Doc.step
    dsimp only
    split
    · exact if_neg fun hx => hx hl
    · rfl

theorem run_text {d d' : Doc} {cs : List Call} (hok : d.Ok) (h : d.run cs = some d') :
    d.text.length ≤ d'.text.length := by
  induction cs generalizing d with
  | nil =>
    cases h
    exact Nat.le_refl _
  | cons c cs ih =>
    obtain ⟨d₁, hstep, hrun⟩ := Option.bind_eq_some_iff.mp h
    obtain ⟨hok', ht⟩ := Doc.text_step hok hstep
    have := ih hok' hrun
    rw [ht, List.length_append] at this
    omega

/-- Calls that all have their place, into a sink that is sure of their text. -/
theorem run_sure (hk : k.Lawful Holds True) {j : Writer S} {d d' : Doc} {b : Nat} {W : List Byte}
    (h : Sim j d) (hh : Holds b j.sink (W ++ d.text)) {cs : List Call} (hc : ∀ c ∈ cs, Short c)
    (hrun : d.run cs = some d') (hb : d'.text.length ≤ d.text.length + b) :
    ∃ j' b', j.run k cs = (true, j') ∧ Sim j' d' ∧ Holds b' j'.sink (W ++ d'.text) := by
  induction cs generalizing j d b with
  | nil =>
    cases hrun
    exact ⟨j, b, rfl, h, hh⟩
  | cons c cs ih =>
    obtain ⟨d₁, hstep, hrest⟩ := Option.bind_eq_some_iff.mp hrun
    obtain ⟨hok, ht⟩ := Doc.text_step h.ok hstep
    have hlen : d₁.text.length = d.text.length + (d.delta c).length := by
      rw [ht, List.length_append]
    have hle := run_text hok hrest
    have hout := call_outcome hk h hh c (hc c (by simp))
      (fun hx => by rw [step_second hx] at hstep; cases hstep) fun _ => by omega
    unfold run
    generalize j.call k c = r at hout
    cases hout with
    | @done j₁ d₂ hstep' hsim hh' =>
      obtain rfl : d₁ = d₂ := Option.some.inj (hstep.symm.trans hstep')
      obtain ⟨j', b', he, hrest⟩ := ih hsim hh' (fun x hx => hc x (by simp [hx])) hrest (by omega)
      refine ⟨j', b', ?_, hrest⟩
      dsimp only
      rw [he]
      rfl
    | misplaced hx =>
      rw [hx] at hstep
      cases hstep
    | broken hx => exact absurd trivial hx

theorem run_tree (hk : k.Lawful Holds True) {t : Datum Leaf} (ht : depthOf t ≤ jsonDepth) {s : S}
    {b : Nat} {W : List Byte} (hh : Holds b s W) (hb : (textOf t).length ≤ b) :
    ∃ j b', (init s).run k (calls t) = (true, j) ∧ j.done = true ∧
      Holds b' j.sink (W ++ textOf t) := by
  have hrun := run_calls t (d := .start) (by simp [Doc.lead, Doc.start])
    (by simpa [Doc.start] using ht) []
  rw [List.append_nil] at hrun
  obtain ⟨j, b', he, hsim, hh'⟩ := run_sure (W := W) hk (init_sim s)
    (by rw [show Doc.start.text = [] from rfl, List.append_nil]; exact hh) (calls_short t) hrun
    (by show (textOf t).length ≤ 0 + b; omega)
  refine ⟨j, b', he, ?_, hh'⟩
  rw [done, hsim.live, show j.depth = 0 from hsim.depth]
  rfl

/-- Every tree that is nested no deeper than the writer goes: its text is read back
as the tree, and its calls put that text into memory with room for it, into a
pipe and into a reply, behind whatever is there. -/
theorem tree_round_trip (t : Datum Leaf) (ht : depthOf t ≤ jsonDepth) :
    JsonText.parse (textOf t) = some (parsed t) ∧
      (∀ cap, (textOf t).length ≤ cap →
        ∃ j, (init ⟨false, cap, []⟩).run Sink.memory (calls t) = (true, j) ∧ j.done = true ∧
          j.sink.bytes = textOf t) ∧
      (∀ p, Taking p →
        ∃ j, (init p).run Sink.pipe (calls t) = (true, j) ∧ j.done = true ∧ Taking j.sink ∧
          j.sink.2.wire ++ j.sink.1.slab = p.2.wire ++ p.1.slab ++ textOf t) ∧
      ∀ base W ctx, Http.Ctx.Going base W ctx →
        (ctx.res.hasLength = true → W.length + (textOf t).length ≤ ctx.res.contentLength) →
        ∃ j, (init ctx).run Sink.reply (calls t) = (true, j) ∧ j.done = true ∧
          Http.Ctx.Going base (W ++ textOf t) j.sink := by
  refine ⟨(reads_text t).parse, fun cap hcap => ?_, fun p hp => ?_, fun base W ctx hg hl => ?_⟩
  · obtain ⟨j, b, he, hd, -, hb, -⟩ := @run_tree _ _ _ memory_sure t ht ⟨false, cap, []⟩ cap []
      ⟨rfl, rfl, by simp⟩ hcap
    exact ⟨j, he, hd, hb⟩
  · obtain ⟨j, b, he, hd, ht', hb⟩ := run_tree (s := p) pipe_sure ht ⟨hp, rfl⟩ (Nat.le_refl _)
    exact ⟨j, he, hd, ht', hb⟩
  · obtain ⟨j, b, he, hd, hg', -⟩ := run_tree (s := ctx) (reply_sure base) ht ⟨hg, hl⟩ (Nat.le_refl _)
    exact ⟨j, he, hd, hg'⟩

def freshConn : Http.Conn :=
  ⟨.init (fun _ => 0) 256 (fun _ _ => 0) [],
    .init (fun _ => 0) Http.pipeLead Http.pipeCap Http.pipeSlack, ⟨[], []⟩⟩

/-- A reply to a GET that has not been written to. -/
def freshReply : Http.Ctx :=
  .init freshConn (.parsed ⟨str "GET", str "/", 1, []⟩) ⟨fun _ => 0, fun _ => 0, fun _ => 0⟩

theorem freshReply_going : Http.Ctx.Going [] [] freshReply :=
  @Http.Ctx.init_going freshConn (.parsed ⟨str "GET", str "/", 1, []⟩) _ ⟨rfl, rfl, rfl, rfl⟩
    (fun _ hr => by cases hr) (by decide)

theorem tree_round_trip_nested :
    let t : Datum Leaf := .arr [.num (.int (-5)), .obj [([97, 34], .str [10])]]
    JsonText.parse (textOf t) = some (.arr [.num ⟨-5, 0⟩, .obj [([97, 34], .str [10])]]) ∧
      ∃ j, (init freshReply).run Sink.reply (calls t) = (true, j) ∧ j.done = true ∧
        Http.Ctx.Going [] (textOf t) j.sink := by
  intro t
  have h := tree_round_trip t (by decide)
  refine ⟨h.1, ?_⟩
  obtain ⟨j, he, hd, hg⟩ := h.2.2.2 [] [] freshReply freshReply_going (fun hx => by cases hx)
  exact ⟨j, he, hd, hg⟩

end Writer

end Ioxd.Json
