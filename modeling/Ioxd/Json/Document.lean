import Ioxd.Json.Writer
import Ioxd.Lib.JsonText

/-!
# Documents

What the calls of a writer mean with no sink and no masks: a document is the
levels that are open, each with the values it has so far. A call has its place
in a document or has none, and `text_step` says what it adds to the text.
-/

namespace Ioxd.Json

open Ioxd.Pipe (Byte)
open Ioxd.Http (str)
open JsonText (joined Value Quoted)

def quoted (s : List Byte) : List Byte :=
  34 :: s.flatMap (fun c => if Writer.needsEscape c then Writer.escape c else [c]) ++ [34]

/-- An open level: the texts of its values, or of its members, and of the name
that waits for its value. -/
inductive Level
  | array (xs : List (List Byte))
  | object (ms : List (List Byte × List Byte)) (key : Option (List Byte))

namespace Level

def members (ms : List (List Byte × List Byte)) : List (List Byte) := ms.map fun m => m.1 ++ 58 :: m.2

def isObject : Level → Bool
  | array _ => false
  | object .. => true

def busy : Level → Bool
  | array xs => !xs.isEmpty
  | object ms key => !ms.isEmpty || key.isSome

def waits : Level → Bool
  | object _ (some _) => true
  | _ => false

def text : Level → List Byte
  | array xs => 91 :: joined xs
  | object ms none => 123 :: joined (members ms)
  | object ms (some name) =>
    123 :: joined (members ms) ++ JsonText.lead (members ms) ++ name ++ [58]

def lead : Level → Option Bool
  | array xs => some !xs.isEmpty
  | object _ none => none
  | object _ (some _) => some false

def add : Level → List Byte → Level
  | array xs, v => array (xs ++ [v])
  | object ms (some name), v => object (ms ++ [(name, v)]) none
  | object ms none, _ => object ms none

def closing (l : Level) : Byte := if l.isObject then 125 else 93

theorem text_add {l : Level} {c : Bool} (h : l.lead = some c) (v : List Byte) :
    (l.add v).text = l.text ++ Writer.comma c ++ v := by
  cases l with
  | array xs =>
    obtain rfl : (!xs.isEmpty) = c := Option.some.inj h
    rw [add, text, text, JsonText.joined_concat]
    cases xs <;> simp [JsonText.lead, Writer.comma]
  | object ms key =>
    cases key with
    | none => cases h
    | some name =>
      obtain rfl : false = c := Option.some.inj h
      rw [add, text, text, members, List.map_append, List.map_singleton, JsonText.joined_concat]
      simp [members, Writer.comma]

end Level

/-- The value at the root, if it is written, and the levels that are open, the
innermost first. -/
structure Doc where
  root : Option (List Byte)
  open' : List Level

namespace Doc

def start : Doc := ⟨none, []⟩

/-- A comma or none in front of a value here, or no place for one. -/
def lead (d : Doc) : Option Bool :=
  match d.open' with
  | [] => if d.root = none then some false else none
  | l :: _ => l.lead

def add (d : Doc) (v : List Byte) : Doc :=
  match d.open' with
  | [] => ⟨some v, []⟩
  | l :: ls => ⟨d.root, l.add v :: ls⟩

def push (d : Doc) (l : Level) : Doc := ⟨d.root, l :: d.open'⟩

def leadText : List Level → List Byte
  | [] => []
  | l :: _ => Writer.comma (l.lead.getD false)

def levelsText : List Level → List Byte
  | [] => []
  | l :: ls => levelsText ls ++ leadText ls ++ l.text

def text (d : Doc) : List Byte :=
  match d.open' with
  | [] => d.root.getD []
  | ls => levelsText ls

def scalar : Writer.Call → Option (List Byte)
  | .string s => some (quoted s)
  | .int v => some (Writer.intText v)
  | .uint v => some (Writer.digits v.toNat)
  | .bool v => some (if v then str "true" else str "false")
  | .null => some (str "null")
  | .number text => text
  | .raw json => if json = [] then none else some json
  | _ => none

/-- The document behind a call, or `none` for a call that has no place in it. -/
def step (d : Doc) : Writer.Call → Option Doc
  | .object =>
    if d.open'.length < jsonDepth ∧ d.lead ≠ none then some (d.push (.object [] none)) else none
  | .array =>
    if d.open'.length < jsonDepth ∧ d.lead ≠ none then some (d.push (.array [])) else none
  | .endLevel =>
    match d.open' with
    | l :: ls => if l.waits then none else some ((⟨d.root, ls⟩ : Doc).add (l.text ++ [l.closing]))
    | [] => none
  | .key name =>
    match d.open' with
    | .object ms none :: ls => some ⟨d.root, .object ms (some (quoted name)) :: ls⟩
    | _ => none
  | c =>
    match scalar c with
    | some v => if d.lead ≠ none then some (d.add v) else none
    | none => none

/-- While a level is open the root has no value yet, and each level that holds
another has a place for it. -/
def Ok (d : Doc) : Prop :=
  (d.open' ≠ [] → d.root = none) ∧ ∀ l ∈ d.open'.tail, l.lead ≠ none

def delta (d : Doc) : Writer.Call → List Byte
  | .object => Writer.comma (d.lead.getD false) ++ [123]
  | .array => Writer.comma (d.lead.getD false) ++ [91]
  | .endLevel =>
    match d.open' with
    | l :: _ => [l.closing]
    | [] => []
  | .key name =>
    match d.open' with
    | l :: _ => Writer.comma l.busy ++ quoted name ++ [58]
    | [] => []
  | c => Writer.comma (d.lead.getD false) ++ (scalar c).getD []

variable {d d' : Doc}

theorem text_add (hd : d.Ok) {c : Bool} (h : d.lead = some c) (v : List Byte) :
    (d.add v).text = d.text ++ Writer.comma c ++ v := by
  obtain ⟨root, ls⟩ := d
  cases ls with
  | nil =>
    unfold lead at h
    dsimp only at h
    split at h
    · rename_i h0
      cases h
      simp [add, text, h0, Writer.comma]
    · cases h
  | cons l ls =>
    have hl : l.lead = some c := h
    show levelsText (l.add v :: ls) = levelsText (l :: ls) ++ _ ++ _
    rw [levelsText, levelsText, Level.text_add hl]
    simp [List.append_assoc]

theorem text_push (hd : d.Ok) {c : Bool} (h : d.lead = some c) (l : Level) :
    (d.push l).text = d.text ++ Writer.comma c ++ l.text := by
  obtain ⟨root, ls⟩ := d
  cases ls with
  | nil =>
    unfold lead at h
    dsimp only at h
    split at h
    · rename_i h0
      cases h
      simp [push, text, levelsText, leadText, h0, Writer.comma]
    · cases h
  | cons l' ls =>
    have hl : l'.lead = some c := h
    show levelsText (l :: l' :: ls) = levelsText (l' :: ls) ++ _ ++ _
    rw [levelsText, leadText, hl]
    rfl

/-- Closing a level adds its bracket: the rest of its text is there. -/
theorem text_close {l : Level} {ls : List Level} (hd : Ok ⟨none, l :: ls⟩) :
    ((⟨none, ls⟩ : Doc).add (l.text ++ [l.closing])).text = levelsText (l :: ls) ++ [l.closing] := by
  cases ls with
  | nil => simp [add, text, levelsText, leadText]
  | cons l' ls =>
    obtain ⟨c, hc⟩ := Option.ne_none_iff_exists'.mp (hd.2 l' (by simp))
    have hok : Ok ⟨none, l' :: ls⟩ := ⟨fun _ => rfl, fun x hx => hd.2 x (by
      simp only [List.tail_cons] at hx ⊢
      exact List.mem_cons_of_mem _ hx)⟩
    rw [text_add hok (show lead ⟨none, l' :: ls⟩ = some c from hc)]
    show levelsText (l' :: ls) ++ _ ++ _ = _
    conv_rhs => rw [levelsText, leadText, hc]
    simp

theorem Ok.below {root : Option (List Byte)} {l : Level} {ls : List Level}
    (h : Ok ⟨root, l :: ls⟩) : root = none ∧ Ok ⟨root, ls⟩ :=
  ⟨h.1 (by simp), fun _ => h.1 (by simp), fun x hx => h.2 x (List.mem_of_mem_tail hx)⟩

theorem Ok.add (h : d.Ok) (v : List Byte) : (d.add v).Ok := by
  obtain ⟨root, ls⟩ := d
  cases ls with
  | nil => exact ⟨fun hx => absurd rfl hx, fun x hx => by cases hx⟩
  | cons l ls => exact ⟨fun _ => h.1 (by simp), fun x hx => h.2 x hx⟩

theorem Ok.push (h : d.Ok) (hl : d.lead ≠ none) (l : Level) : (d.push l).Ok := by
  obtain ⟨root, ls⟩ := d
  refine ⟨fun _ => ?_, fun x hx => ?_⟩
  · cases ls with
    | nil =>
      by_contra h0
      exact hl (if_neg h0)
    | cons l' ls => exact h.1 (by simp)
  · cases ls with
    | nil => cases hx
    | cons l' ls =>
      rcases List.mem_cons.mp hx with rfl | hx
      · exact hl
      · exact h.2 x hx

theorem text_step (hd : d.Ok) {c : Writer.Call} (h : d.step c = some d') :
    d'.Ok ∧ d'.text = d.text ++ d.delta c := by
  -- a container, and a value that is written whole
  have hpush (l : Level) (hl : d.lead ≠ none) :
      (d.push l).Ok ∧ (d.push l).text = d.text ++ (Writer.comma (d.lead.getD false) ++ l.text) := by
    obtain ⟨b, hb⟩ := Option.ne_none_iff_exists'.mp hl
    refine ⟨hd.push hl l, ?_⟩
    rw [text_push hd hb, hb, List.append_assoc]
    rfl
  have hadd {v : List Byte} (hv : scalar c = some v)
      (h : (if d.lead ≠ none then some (d.add v) else none) = some d') :
      d'.Ok ∧ d'.text = d.text ++ (Writer.comma (d.lead.getD false) ++ (scalar c).getD []) := by
    split at h
    · rename_i hl
      cases h
      obtain ⟨b, hb⟩ := Option.ne_none_iff_exists'.mp hl
      refine ⟨hd.add v, ?_⟩
      rw [text_add hd hb, hb, hv, List.append_assoc]
      rfl
    · cases h
  cases c with
  | object =>
    unfold step at h
    dsimp only at h
    split at h
    · rename_i hc
      cases h
      exact hpush _ hc.2
    · cases h
  | array =>
    unfold step at h
    dsimp only at h
    split at h
    · rename_i hc
      cases h
      exact hpush _ hc.2
    · cases h
  | endLevel =>
    obtain ⟨root, ls⟩ := d
    cases ls with
    | nil => cases h
    | cons l ls =>
      obtain ⟨rfl, hb⟩ := hd.below
      unfold step at h
      dsimp only at h
      split at h
      · cases h
      · cases h
        exact ⟨hb.add _, text_close hd⟩
  | key name =>
    obtain ⟨root, ls⟩ := d
    unfold step at h
    dsimp only at h
    split at h
    · rename_i ms ls
      cases h
      refine ⟨⟨fun _ => hd.1 (by simp), fun x hx => hd.2 x hx⟩, ?_⟩
      show levelsText _ = levelsText _ ++ _
      rw [levelsText, levelsText, Level.text, Level.text]
      cases ms <;> simp [delta, Level.busy, JsonText.lead, Level.members, Writer.comma]
    · cases h
  | string s => exact hadd rfl h
  | int v => exact hadd rfl h
  | uint v => exact hadd rfl h
  | bool v => exact hadd rfl h
  | null => exact hadd rfl h
  | number text =>
    cases text with
    | none => cases h
    | some t => exact hadd rfl h
  | raw json =>
    unfold step at h
    dsimp only at h
    split at h
    · rename_i v hv
      exact hadd hv h
    · cases h

-- ---------------------------------------------------------------------------
-- What the pieces are
-- ---------------------------------------------------------------------------

def LevelWf : Level → Prop
  | .array xs => ∀ x ∈ xs, Value x
  | .object ms key => (∀ m ∈ ms, Quoted m.1 ∧ Value m.2) ∧ ∀ name ∈ key, Quoted name

structure Wf (d : Doc) : Prop where
  root : ∀ v ∈ d.root, Value v
  levels : ∀ l ∈ d.open', LevelWf l

theorem Wf.add (h : d.Wf) {v : List Byte} (hv : Value v) : (d.add v).Wf := by
  obtain ⟨root, ls⟩ := d
  cases ls with
  | nil => exact ⟨by simpa [Doc.add] using hv, by simp [Doc.add]⟩
  | cons l ls =>
    refine ⟨h.root, fun x hx => ?_⟩
    rcases List.mem_cons.mp hx with rfl | hx
    · have hl := h.levels l (by simp)
      cases l with
      | array xs =>
        intro x hx
        rcases List.mem_append.mp hx with hx | hx
        · exact hl x hx
        · rw [List.mem_singleton.mp hx]
          exact hv
      | object ms key =>
        cases key with
        | none => exact hl
        | some name =>
          refine ⟨fun m hm => ?_, by simp⟩
          rcases List.mem_append.mp hm with hm | hm
          · exact hl.1 m hm
          · rw [List.mem_singleton.mp hm]
            exact ⟨hl.2 name (by simp), hv⟩
    · exact h.levels x (by simp [hx])

/-- A level that waits for nothing is a value when it is closed. -/
theorem value_closed {l : Level} (h : LevelWf l) (hw : l.waits = false) :
    Value (l.text ++ [l.closing]) := by
  cases l with
  | array xs => exact .array xs h
  | object ms key =>
    cases key with
    | some name => cases hw
    | none =>
      have hv := Value.object (ms.map fun m => ⟨[], m.1, [], m.2⟩)
        (by
          intro m hm
          obtain ⟨m', hm', rfl⟩ := List.mem_map.mp hm
          exact (h.1 m' hm').1)
        (by
          intro m hm
          obtain ⟨m', -, rfl⟩ := List.mem_map.mp hm
          simp)
        (by
          intro m hm
          obtain ⟨m', hm', rfl⟩ := List.mem_map.mp hm
          exact (h.1 m' hm').2)
      simpa [JsonText.Member.text, Level.text, Level.members, Level.closing, Level.isObject,
        Function.comp_def] using hv

/-- The texts that a call brings in are values: what it is given raw, and what a
number was formatted as. -/
def Given : Writer.Call → Prop
  | .raw json => json = [] ∨ Value json
  | .number text => ∀ t ∈ text, JsonText.Number t
  | _ => True

theorem digits_more {size v : Nat} (hv : 0 < v) (hlt : v < 10 ^ size) :
    ∃ c t, Http.putDigits 10 (fun d => UInt8.ofNat (48 + d)) size v = c :: t ∧ 49 ≤ c ∧ c ≤ 57 ∧
      ∀ d ∈ t, JsonText.isDigit d := by
  have hdigit : ∀ d < 10, JsonText.isDigit (UInt8.ofNat (48 + d)) = true := by decide
  have hfirst : ∀ d < 10, 0 < d → 49 ≤ UInt8.ofNat (48 + d) ∧ UInt8.ofNat (48 + d) ≤ 57 := by
    decide
  induction size generalizing v with
  | zero =>
    rw [Nat.pow_zero] at hlt
    omega
  | succ size ih =>
    unfold Http.putDigits
    by_cases h0 : v / 10 = 0
    · rw [if_pos h0]
      obtain ⟨h1, h2⟩ := hfirst (v % 10) (by omega) (by omega)
      exact ⟨_, [], rfl, h1, h2, by simp⟩
    · rw [if_neg h0]
      rw [Nat.pow_succ] at hlt
      obtain ⟨c, t, he, h1, h2, h3⟩ := ih (v := v / 10) (by omega) (by omega)
      refine ⟨c, t ++ [UInt8.ofNat (48 + v % 10)], by rw [he]; rfl, h1, h2, fun d hd => ?_⟩
      rcases List.mem_append.mp hd with hd | hd
      · exact h3 d hd
      · rw [List.mem_singleton.mp hd]
        exact hdigit _ (by omega)

theorem digits_whole {v : Nat} (hv : v ≤ 2 ^ 64) : JsonText.Whole (Writer.digits v) := by
  by_cases h0 : v = 0
  · subst h0
    exact .zero
  · obtain ⟨c, t, he, h1, h2, h3⟩ := @digits_more 24 v (by omega) (by omega)
    rw [Writer.digits, he]
    exact .more c h1 h2 h3

theorem number_whole {sign s : List Byte} (hs : sign = [] ∨ sign = [45])
    (h : JsonText.Whole s) : JsonText.Number (sign ++ s) := by
  have := JsonText.Number.mk hs h (.inl rfl) (.inl rfl)
  simpa using this

theorem magnitude_le (v : Int64) : Writer.magnitude v.toInt ≤ 2 ^ 63 := by
  have h1 := v.toInt_lt
  have h2 := v.le_toInt
  unfold Writer.magnitude
  split <;> omega

theorem chars_escaped (s : List Byte) :
    JsonText.Chars (s.flatMap fun c => if Writer.needsEscape c then Writer.escape c else [c]) := by
  have hhex : ∀ n < 16, JsonText.isHex (Writer.hexDigit n) = true := by decide
  induction s with
  | nil => exact .nil
  | cons c s ih =>
    rw [List.flatMap_cons]
    by_cases h : Writer.needsEscape c = true
    · rw [if_pos h]
      unfold Writer.escape
      have hlt := c.toNat_lt
      split
      · exact .escape 34 (by decide) ih
      split
      · exact .escape 92 (by decide) ih
      split
      · exact .escape 110 (by decide) ih
      split
      · exact .escape 114 (by decide) ih
      split
      · exact .escape 116 (by decide) ih
      split
      · exact .escape 98 (by decide) ih
      split
      · exact .escape 102 (by decide) ih
      · exact .unicode 48 48 _ _ (by decide) (by decide) (hhex _ (by omega)) (hhex _ (by omega)) ih
    · rw [if_neg h]
      simp only [Writer.needsEscape, Bool.or_eq_true, decide_eq_true_eq, beq_iff_eq, not_or] at h
      exact .plain c (UInt8.not_lt.mp h.1.1) h.1.2 h.2 ih

theorem quoted_ok (s : List Byte) : Quoted (quoted s) := .mk (chars_escaped s)

theorem value_scalar {c : Writer.Call} (hc : Given c) {v : List Byte} (h : scalar c = some v) :
    Value v := by
  cases c with
  | object => cases h
  | array => cases h
  | endLevel => cases h
  | key name => cases h
  | string s =>
    cases h
    exact .string (quoted_ok s)
  | int n =>
    cases h
    have hw := digits_whole (Nat.le_trans (magnitude_le n) (by omega))
    unfold Writer.intText
    split
    · exact .number (@number_whole [45] _ (.inr rfl) hw)
    · exact .number (@number_whole [] _ (.inl rfl) hw)
  | uint n =>
    cases h
    have hlt := n.toNat_lt
    exact .number (@number_whole [] _ (.inl rfl) (digits_whole (by omega)))
  | bool b =>
    cases h
    cases b
    · exact .false
    · exact .true
  | null =>
    cases h
    exact .null
  | number text =>
    cases text with
    | none => cases h
    | some t =>
      cases h
      exact .number (hc _ rfl)
  | raw json =>
    unfold scalar at h
    dsimp only at h
    split at h
    · cases h
    · rename_i h0
      cases h
      exact hc.resolve_left h0

theorem wf_step (hwf : d.Wf) {c : Writer.Call} (hc : Given c) (h : d.step c = some d') :
    d'.Wf := by
  have hpush (l : Level) (hl : LevelWf l) : (d.push l).Wf := by
    refine ⟨hwf.root, fun x hx => ?_⟩
    rcases List.mem_cons.mp hx with rfl | hx
    · exact hl
    · exact hwf.levels x hx
  have hadd {v : List Byte} (hv : scalar c = some v)
      (h : (if d.lead ≠ none then some (d.add v) else none) = some d') : d'.Wf := by
    split at h
    · cases h
      exact hwf.add (value_scalar hc hv)
    · cases h
  cases c with
  | object =>
    unfold step at h
    dsimp only at h
    split at h
    · cases h
      exact hpush _ ⟨by simp, by simp⟩
    · cases h
  | array =>
    unfold step at h
    dsimp only at h
    split at h
    · cases h
      exact hpush _ (fun x hx => by cases hx)
    · cases h
  | endLevel =>
    obtain ⟨root, ls⟩ := d
    cases ls with
    | nil => cases h
    | cons l ls =>
      unfold step at h
      dsimp only at h
      split at h
      · cases h
      · rename_i hw
        cases h
        have hb : (⟨root, ls⟩ : Doc).Wf := ⟨hwf.root, fun x hx => hwf.levels x (by simp [hx])⟩
        exact hb.add (value_closed (hwf.levels l (by simp)) (by simpa using hw))
  | key name =>
    obtain ⟨root, ls⟩ := d
    unfold step at h
    dsimp only at h
    split at h
    · rename_i ms ls
      cases h
      refine ⟨hwf.root, fun x hx => ?_⟩
      rcases List.mem_cons.mp hx with rfl | hx
      · exact ⟨(hwf.levels _ (List.mem_cons_self ..)).1, by simpa using quoted_ok name⟩
      · exact hwf.levels x (by simp [hx])
    · cases h
  | string s => exact hadd rfl h
  | int v => exact hadd rfl h
  | uint v => exact hadd rfl h
  | bool v => exact hadd rfl h
  | null => exact hadd rfl h
  | number text =>
    cases text with
    | none => cases h
    | some t => exact hadd rfl h
  | raw json =>
    unfold step at h
    dsimp only at h
    split at h
    · rename_i v hv
      exact hadd hv h
    · cases h

end Doc

end Ioxd.Json
