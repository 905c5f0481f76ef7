import Ioxd.Json.Document
import Ioxd.Http.HeadLaws
import Mathlib.Tactic.ByContra

/-!
# The writer writes the document

Each call either has its place in the document, and then its text goes to the
sink and the masks follow the levels, or it has none and the writer has failed.
A sink may fail too, unless it is `sure` of the bytes that are still to come.
-/

namespace Ioxd.Json

open Ioxd.Pipe (Byte)

/-- What the writer relies on: `Holds b s W` is a sink that has been given the
bytes `W` and is good for `b` more. -/
structure Sink.Lawful {S : Type} (k : Sink S) (Holds : Nat → S → List Byte → Prop)
    (sure : Prop) : Prop where
  sound : ∀ {b s W}, Holds b s W → sure → k.broken s = false
  reserve : ∀ {b s W n}, Holds b s W → 0 < n → (sure → n ≤ b ∧ n ≤ runMax) →
    k.room s < n ∨ k.broken s = true →
    (∃ s', k.reserve s n = (true, s') ∧ Holds b s' W ∧ n ≤ k.room s') ∨
      ¬ sure ∧ ∃ s', k.reserve s n = (false, s')
  write : ∀ {b s W data}, Holds b s W → data.length ≤ k.room s → (sure → data.length ≤ b) →
    Holds (b - data.length) (k.write s data) (W ++ data)

namespace Writer

variable {S : Type} {k : Sink S} {Holds : Nat → S → List Byte → Prop} {sure : Prop}
variable {j : Writer S} {b : Nat} {W : List Byte}

/-- The bytes are put, or the sink has failed and the writer with it. -/
inductive Puts (Holds : Nat → S → List Byte → Prop) (sure : Prop) (j : Writer S) (b : Nat)
    (W data : List Byte) : Bool × Writer S → Prop
  | put {s : S} : Holds (b - data.length) s (W ++ data) →
      Puts Holds sure j b W data (true, { j with sink := s })
  | failed {s : S} : ¬ sure →
      Puts Holds sure j b W data (false, { j with sink := s, failed := true })

inductive Rooms (k : Sink S) (Holds : Nat → S → List Byte → Prop) (sure : Prop) (j : Writer S)
    (b : Nat) (W : List Byte) (n : Nat) : Bool × Writer S → Prop
  | room {s : S} : Holds b s W → n ≤ k.room s → Rooms k Holds sure j b W n (true, { j with sink := s })
  | failed {s : S} : ¬ sure →
      Rooms k Holds sure j b W n (false, { j with sink := s, failed := true })

theorem makeRoom_rooms (hk : k.Lawful Holds sure) {n : Nat}
    (h : Holds b j.sink W) (hn : 0 < n) (hs : sure → n ≤ b ∧ n ≤ runMax)
    (hr : k.room j.sink < n ∨ k.broken j.sink = true) :
    Rooms k Holds sure j b W n (j.makeRoom k n) := by
  unfold makeRoom
  rcases hk.reserve h hn hs hr with ⟨s, he, hh, hle⟩ | ⟨hno, s, he⟩
  · rw [he]
    have : { j with sink := s, failed := j.failed || !true } = { j with sink := s } := by simp
    dsimp only
    rw [this]
    exact .room hh hle
  · rw [he]
    have : { j with sink := s, failed := j.failed || !false } =
        { j with sink := s, failed := true } := by simp
    dsimp only
    rw [this]
    exact .failed hno

theorem want_rooms (hk : k.Lawful Holds sure) {n : Nat}
    (h : Holds b j.sink W) (hn : 0 < n) (hs : sure → n ≤ b ∧ n ≤ runMax) :
    Rooms k Holds sure j b W n (j.want k n) := by
  unfold want
  split
  · rename_i hc
    exact .room h hc.1
  · rename_i hc
    refine makeRoom_rooms hk h hn hs ?_
    by_contra hx
    rw [not_or, Nat.not_lt] at hx
    exact hc hx

theorem emit_puts (hk : k.Lawful Holds sure) {data : List Byte} (h : Holds b j.sink W)
    (hle : data.length ≤ k.room j.sink) (hs : sure → data.length ≤ b) :
    Puts Holds sure j b W data (true, j.emit k data) := .put (hk.write h hle hs)

theorem Puts.andThen {data data' : List Byte} {r : Bool × Writer S} {f : Writer S → Bool × Writer S}
    (h : Puts Holds sure j b W data r)
    (hf : ∀ s, Holds (b - data.length) s (W ++ data) →
      Puts Holds sure { j with sink := s } (b - data.length) (W ++ data) data'
        (f { j with sink := s })) :
    Puts Holds sure j b W (data ++ data') (andThen r f) := by
  cases h with
  | failed hno => exact .failed hno
  | @put s hs =>
    have h2 := hf s hs
    rw [Writer.andThen]
    generalize f { j with sink := s } = r at h2
    cases h2 with
    | failed hno => exact .failed hno
    | put hs' =>
      refine .put ?_
      rw [List.length_append, Nat.sub_add_eq, ← List.append_assoc]
      exact hs'

theorem Puts.skip (h : Holds b j.sink W) : Puts Holds sure j b W [] (true, j) := by
  have : Puts Holds sure j b W [] (true, { j with sink := j.sink }) :=
    .put (by simpa using h)
  exact this

theorem putLoop_puts (hk : k.Lawful Holds sure) {turns : Nat} {p : List Byte}
    (h : Holds b j.sink W) (hs : sure → p.length ≤ b)
    (hn : p.length < turns) : Puts Holds sure j b W p (j.putLoop k turns p) := by
  induction turns generalizing j b W p with
  | zero => omega
  | succ turns ih =>
    unfold putLoop
    by_cases hp : p = []
    · rw [if_pos hp, hp]
      exact .skip h
    rw [if_neg hp]
    have hpos := List.length_pos_iff.mpr hp
    have hmax : 0 < runMax := by decide
    -- a turn has room for a byte at least, or the sink has failed
    have hr : Rooms k Holds sure j b W 1
        (if k.room j.sink = 0 ∨ k.broken j.sink = true then
          j.makeRoom k (min p.length runMax) else (true, j)) := by
      split
      · rename_i hc
        have hm := makeRoom_rooms hk (n := min p.length runMax) h (by omega)
          (fun hsure => ⟨by have := hs hsure; omega, by omega⟩) (by
            rcases hc with hc | hc
            · exact .inl (by omega)
            · exact .inr hc)
        generalize j.makeRoom k (min p.length runMax) = r at hm
        cases hm with
        | room hh hle => exact .room hh (by omega)
        | failed hno => exact .failed hno
      · rename_i hc
        rw [not_or] at hc
        have : Rooms k Holds sure j b W 1 (true, { j with sink := j.sink }) := .room h (by omega)
        exact this
    generalize (if k.room j.sink = 0 ∨ k.broken j.sink = true then
      j.makeRoom k (min p.length runMax) else (true, j)) = r at hr
    cases hr with
    | failed hno => exact .failed hno
    | @room s hh hle =>
      have htake : (p.take (min p.length (k.room s))).length = min p.length (k.room s) := by
        rw [List.length_take]
        omega
      have hw : Holds (b - (p.take (min p.length (k.room s))).length)
          (k.write s (p.take (min p.length (k.room s))))
          (W ++ p.take (min p.length (k.room s))) :=
        hk.write hh (by omega) fun hsure => by have := hs hsure; omega
      rw [htake] at hw
      have hrest := ih (j := { j with sink := k.write s (p.take (min p.length (k.room s))) })
        (p := p.drop (min p.length (k.room s))) hw
        (fun hsure => by have := hs hsure; rw [List.length_drop]; omega)
        (by rw [List.length_drop]; omega)
      show Puts Holds sure j b W p (putLoop k turns
        { j with sink := k.write s (p.take (min p.length (k.room s))) }
        (p.drop (min p.length (k.room s))))
      generalize putLoop k turns { j with sink := k.write s (p.take (min p.length (k.room s))) }
        (p.drop (min p.length (k.room s))) = r at hrest
      cases hrest with
      | failed hno => exact .failed hno
      | put hs' =>
        refine .put ?_
        rw [List.append_assoc, List.take_append_drop, List.length_drop, Nat.sub_sub,
          Nat.add_sub_cancel' (Nat.min_le_left ..)] at hs'
        exact hs'

theorem put_puts (hk : k.Lawful Holds sure) {p : List Byte}
    (h : Holds b j.sink W) (hs : sure → p.length ≤ b) :
    Puts Holds sure j b W p (j.put k p) := putLoop_puts hk h hs (Nat.lt_succ_self _)

def escaped (p : List Byte) : List Byte :=
  p.flatMap fun c => if needsEscape c then escape c else [c]

theorem escaped_append (p q : List Byte) : escaped (p ++ q) = escaped p ++ escaped q :=
  List.flatMap_append ..

theorem escaped_clean {p : List Byte} (h : ∀ c ∈ p, needsEscape c = false) : escaped p = p := by
  induction p with
  | nil => rfl
  | cons c p ih =>
    have := h c (by simp)
    rw [escaped, List.flatMap_cons, if_neg (by simp [this]), ← escaped,
      ih fun x hx => h x (by simp [hx])]
    rfl

theorem putEscapedLoop_puts (hk : k.Lawful Holds sure) {turns : Nat} {p : List Byte}
    (h : Holds b j.sink W) (hs : sure → (escaped p).length ≤ b)
    (hn : p.length < turns) :
    Puts Holds sure j b W (escaped p) (j.putEscapedLoop k turns p) := by
  induction turns generalizing j b W p with
  | zero => omega
  | succ turns ih =>
    unfold putEscapedLoop
    by_cases hp : p = []
    · rw [if_pos hp, hp]
      exact .skip h
    rw [if_neg hp]
    -- the clean bytes in front, and what is left behind them
    have hclean : ∀ c ∈ p.takeWhile (!needsEscape ·), needsEscape c = false := fun c hc => by
      simpa using List.mem_takeWhile_imp hc
    have happ := List.takeWhile_append_dropWhile (p := (!needsEscape ·)) (l := p)
    have hdrop : p.drop (p.takeWhile (!needsEscape ·)).length = p.dropWhile (!needsEscape ·) := by
      have := congrArg (List.drop (p.takeWhile (!needsEscape ·)).length) happ
      rw [List.drop_left] at this
      exact this.symm
    have hsplit : p = p.takeWhile (!needsEscape ·) ++ p.drop (p.takeWhile (!needsEscape ·)).length := by
      rw [hdrop, happ]
    have hhead : ∀ c rest, p.drop (p.takeWhile (!needsEscape ·)).length = c :: rest →
        needsEscape c = true := by
      intro c rest hd
      have hdw : p.dropWhile (!needsEscape ·) = c :: rest := hdrop.symm.trans hd
      have := List.head_dropWhile_not (!needsEscape ·) (l := p) (by simp [hdw])
      simpa [hdw] using this
    clear happ hdrop
    generalize p.takeWhile (!needsEscape ·) = run at hclean hsplit hhead
    dsimp only
    generalize p.drop run.length = tail at hsplit hhead
    have hlen : (escaped p).length = run.length + (escaped tail).length := by
      rw [hsplit, escaped_append, escaped_clean hclean, List.length_append]
    rw [hsplit, escaped_append, escaped_clean hclean]
    refine Puts.andThen ?_ fun s hh => ?_
    · split
      · exact put_puts hk h fun hsure => by have := hs hsure; omega
      · rename_i h0
        rw [not_not] at h0
        rw [h0]
        exact .skip h
    · cases tail with
      | nil => exact .skip hh
      | cons c rest =>
        have hc := hhead c rest rfl
        have he : escaped (c :: rest) = escape c ++ escaped rest := by
          rw [escaped, List.flatMap_cons, if_pos hc]
          rfl
        rw [he] at hlen ⊢
        rw [List.length_append] at hlen
        refine Puts.andThen (put_puts hk hh fun hsure => ?_) fun s' hh' => ?_
        · have := hs hsure
          omega
        · refine ih hh' (fun hsure => ?_) ?_
          · have := hs hsure
            omega
          · rw [hsplit, List.length_append, List.length_cons] at hn
            omega

theorem putEscaped_puts (hk : k.Lawful Holds sure) {p : List Byte}
    (h : Holds b j.sink W) (hs : sure → (escaped p).length ≤ b) :
    Puts Holds sure j b W (escaped p) (j.putEscaped k p) :=
  putEscapedLoop_puts hk h hs (Nat.lt_succ_self _)

theorem quoted_eq (p : List Byte) : quoted p = 34 :: escaped p ++ [34] := rfl

theorem lead_puts (hk : k.Lawful Holds sure) {lead : Bool} (h : Holds b j.sink W)
    (hs : sure → (comma lead).length ≤ b) :
    Puts Holds sure j b W (comma lead) (if lead then j.put k [44] else (true, j)) := by
  cases lead with
  | false => exact .skip h
  | true => exact put_puts hk h hs

theorem putString_puts (hk : k.Lawful Holds sure) (lead : Bool) (p after : List Byte)
    (h : Holds b j.sink W)
    (hs : sure → (comma lead ++ (quoted p ++ after)).length ≤ b) :
    Puts Holds sure j b W (comma lead ++ (quoted p ++ after)) (j.putString k lead p after) := by
  unfold putString
  dsimp only
  split
  · rename_i hc
    have hclean : escaped p = p := escaped_clean fun c hc' => by
      simpa using List.all_eq_true.mp hc.1.2 c hc'
    have he : comma lead ++ (quoted p ++ after) = comma lead ++ 34 :: p ++ 34 :: after := by
      rw [quoted_eq, hclean]
      simp
    rw [he] at hs ⊢
    refine emit_puts hk h (Nat.le_trans (Nat.le_of_eq ?_) hc.2.1) hs
    simp only [List.length_append, List.length_cons]
    omega
  · have hlen : (comma lead ++ (quoted p ++ after)).length =
        (comma lead).length + (1 + ((escaped p).length + (1 + after.length))) := by
      rw [quoted_eq]
      simp only [List.length_append, List.length_cons, List.length_nil]
      omega
    rw [hlen] at hs
    have he : comma lead ++ (quoted p ++ after) =
        comma lead ++ ([34] ++ (escaped p ++ ([34] ++ after))) := by
      rw [quoted_eq]
      simp
    rw [he]
    have h34 : ([34] : List Byte).length = 1 := rfl
    refine Puts.andThen (lead_puts hk h fun hsure => ?_) fun s h =>
      Puts.andThen (put_puts hk h fun hsure => ?_) fun s h =>
      Puts.andThen (putEscaped_puts hk h fun hsure => ?_) fun s h =>
      Puts.andThen (put_puts hk h fun hsure => ?_) fun s h => ?_
    · have := hs hsure
      omega
    · have := hs hsure
      omega
    · have := hs hsure
      omega
    · have := hs hsure
      omega
    split
    · rename_i h0
      rw [h0]
      exact .skip h
    · exact put_puts hk h fun hsure => by
        have := hs hsure
        omega

-- ---------------------------------------------------------------------------
-- The masks
-- ---------------------------------------------------------------------------

theorem and_bit_ne_zero (x : BitVec 64) {n : Nat} (hn : n < 64) :
    x &&& 1#64 <<< n ≠ 0 ↔ x.getLsbD n = true := by
  constructor
  · intro h
    by_contra hb
    refine h (BitVec.eq_of_getLsbD_eq fun i hi => ?_)
    rw [BitVec.getLsbD_and, BitVec.getLsbD_shiftLeft, BitVec.getLsbD_one]
    by_cases he : i = n
    · subst he
      simp [hb]
    · have : ¬ (i - n = 0 ∧ n ≤ i) := by omega
      simp
      omega
  · intro h h0
    have hb := congrArg (BitVec.getLsbD · n) h0
    rw [BitVec.getLsbD_and, h, BitVec.getLsbD_shiftLeft, BitVec.getLsbD_one] at hb
    simp [hn] at hb

theorem getLsbD_or_bit (x : BitVec 64) {n : Nat} (hn : n < 64) (i : Nat) :
    (x ||| 1#64 <<< n).getLsbD i = (x.getLsbD i || decide (i = n)) := by
  rw [BitVec.getLsbD_or, BitVec.getLsbD_shiftLeft, BitVec.getLsbD_one]
  by_cases he : i = n
  · simp [he, hn]
  · have : ¬ (n ≤ i ∧ i - n = 0) := by omega
    simp [he]
    omega

theorem getLsbD_clear_bit (x : BitVec 64) {n : Nat} (hn : n < 64) (i : Nat) :
    (x &&& ~~~(1#64 <<< n)).getLsbD i = (x.getLsbD i && decide (i ≠ n)) := by
  rw [BitVec.getLsbD_and, BitVec.getLsbD_not, BitVec.getLsbD_shiftLeft, BitVec.getLsbD_one]
  by_cases hi : i < 64
  · by_cases he : i = n
    · simp [he, hn]
    · simp [hi, he]
      omega
  · simp [hi, BitVec.getLsbD_of_ge x i (by omega)]

def Deep (has obj : BitVec 64) : List Level → Prop
  | [] => obj.getLsbD 0 = false ∧ has.getLsbD 0 = true
  | l :: ls => obj.getLsbD (ls.length + 1) = l.isObject ∧ has.getLsbD (ls.length + 1) = true ∧
      Deep has obj ls

def Masks (has obj : BitVec 64) (d : Doc) : Prop :=
  match d.open' with
  | [] => obj.getLsbD 0 = false ∧ has.getLsbD 0 = d.root.isSome
  | l :: ls => obj.getLsbD (ls.length + 1) = l.isObject ∧ has.getLsbD (ls.length + 1) = l.busy ∧
      Deep has obj ls

theorem Deep.congr {has has' obj obj' : BitVec 64} {ls : List Level} (h : Deep has obj ls)
    (ho : ∀ i ≤ ls.length, obj'.getLsbD i = obj.getLsbD i)
    (hh : ∀ i ≤ ls.length, has'.getLsbD i = has.getLsbD i) : Deep has' obj' ls := by
  induction ls with
  | nil => exact ⟨(ho 0 (by simp)).trans h.1, (hh 0 (by simp)).trans h.2⟩
  | cons l ls ih =>
    have hle : ls.length + 1 ≤ (l :: ls).length := by simp
    refine ⟨(ho _ hle).trans h.1, (hh _ hle).trans h.2.1, ih h.2.2 (fun i hi => ?_) fun i hi => ?_⟩
    · exact ho i (by omega)
    · exact hh i (by omega)

theorem busy_add {l : Level} (h : l.lead ≠ none) (v : List Byte) :
    (l.add v).isObject = l.isObject ∧ (l.add v).busy = true ∧ (l.add v).waits = false := by
  cases l with
  | array xs => simp [Level.add, Level.isObject, Level.busy, Level.waits]
  | object ms key =>
    cases key with
    | none => exact absurd rfl h
    | some name => simp [Level.add, Level.isObject, Level.busy, Level.waits]

theorem Deep.masks_add {has obj : BitVec 64} {d : Doc} (h : Deep has obj d.open')
    (hl : d.lead ≠ none) (v : List Byte) : Masks has obj (d.add v) := by
  obtain ⟨root, ls⟩ := d
  cases ls with
  | nil => exact h
  | cons l ls =>
    obtain ⟨h1, h2, -⟩ := busy_add (l := l) hl v
    exact ⟨h.1.trans h1.symm, h.2.1.trans h2.symm, h.2.2⟩

structure Sim (j : Writer S) (d : Doc) : Prop where
  live : j.failed = false
  ok : d.Ok
  depth : j.depth = d.open'.length
  max : d.open'.length ≤ jsonDepth
  after : j.afterKey = (d.open'.head?.elim false Level.waits)
  masks : Masks j.hasValue j.isObject d

theorem init_sim (sink : S) : Sim (init sink) .start :=
  ⟨rfl, ⟨fun h => absurd rfl h, fun x hx => by cases hx⟩, rfl, Nat.zero_le _, rfl,
    show (0 : BitVec 64).getLsbD 0 = false by decide,
    show (0 : BitVec 64).getLsbD 0 = false by decide⟩

theorem Sim.depth_lt {d : Doc} (h : Sim j d) : j.depth < 64 := by
  have := h.max
  have : jsonDepth = 63 := rfl
  rw [h.depth]
  omega

def brings : Call → Bool
  | .endLevel | .key _ | .number none | .raw [] => false
  | _ => true

/-- The document has its one value, and the call brings another. -/
def Second (d : Doc) (c : Call) : Prop := d.open' = [] ∧ d.root ≠ none ∧ brings c = true

/-- `value_lead`: whether the value has a place here, and then this level has
it. -/
theorem valueLead_sim {d : Doc} (h : Sim j d) (hroot : ¬ (d.open' = [] ∧ d.root ≠ none)) :
    (∀ c, d.lead = some c → ∃ has, j.valueLead = (some c, { j with
        afterKey := false
        hasValue := has }) ∧ Deep has j.isObject d.open') ∧
      (d.lead = none → j.valueLead = (none, { j with failed := true })) := by
  have hlt := h.depth_lt
  have hobj := and_bit_ne_zero j.isObject hlt
  have hval := and_bit_ne_zero j.hasValue hlt
  have hset := getLsbD_or_bit j.hasValue hlt
  obtain ⟨hlive, hok, hdepth, -, hafter, hmasks⟩ := h
  unfold valueLead bit
  rw [if_neg (by simp [hlive])]
  have hkeep (ha : j.afterKey = false) (has : BitVec 64) :
      ({ j with hasValue := has } : Writer S) = { j with afterKey := false, hasValue := has } := by
    rw [← ha]
  obtain ⟨root, ls⟩ := d
  cases ls with
  | nil =>
    obtain ⟨hm1, hm2⟩ := hmasks
    obtain rfl : root = none := by
      by_contra hr
      exact hroot ⟨rfl, hr⟩
    rw [show 0 = j.depth from hdepth.symm] at hm1 hm2
    have ha : j.afterKey = false := hafter
    rw [if_neg (by simp [ha]), if_neg (by rw [hobj, hm1]; simp),
      if_neg (by rw [hval, hm2]; simp)]
    refine ⟨fun c hc => ?_, fun hc => by simp [Doc.lead] at hc⟩
    obtain rfl : false = c := by simpa [Doc.lead] using hc
    refine ⟨_, by rw [hkeep ha], ?_, ?_⟩
    · rw [show 0 = j.depth from hdepth.symm]
      exact hm1
    · rw [show 0 = j.depth from hdepth.symm, hset]
      simp
  | cons l ls =>
    have hdepth : j.depth = ls.length + 1 := hdepth
    obtain ⟨hm1, hm2, hm3⟩ := hmasks
    rw [← hdepth] at hm1 hm2
    have ha : j.afterKey = l.waits := hafter
    have hdeep (has : BitVec 64) (h1 : has.getLsbD j.depth = true)
        (h2 : ∀ i ≤ ls.length, has.getLsbD i = j.hasValue.getLsbD i) :
        Deep has j.isObject (l :: ls) := by
      refine ⟨?_, ?_, hm3.congr (fun _ _ => rfl) h2⟩
      · rw [← hdepth]
        exact hm1
      · rw [← hdepth]
        exact h1
    cases l with
    | array xs =>
      have ha : j.afterKey = false := ha
      rw [if_neg (by simp [ha]), if_neg (by rw [hobj, hm1]; simp [Level.isObject])]
      refine ⟨fun c hc => ?_, fun hc => by simp [Doc.lead, Level.lead] at hc⟩
      have hb : j.hasValue.getLsbD j.depth = !xs.isEmpty := hm2
      obtain rfl : (!xs.isEmpty) = c := by simpa [Doc.lead, Level.lead] using hc
      cases hx : xs.isEmpty with
      | true =>
        rw [if_neg (by rw [hval, hb, hx]; simp)]
        refine ⟨_, by rw [hkeep ha]; rfl, hdeep _ (by rw [hset]; simp) fun i hi => ?_⟩
        have : i ≠ j.depth := by omega
        simp [hset, this]
      | false =>
        rw [if_pos (by rw [hval, hb, hx]; rfl)]
        exact ⟨j.hasValue, by rw [← hkeep ha]; rfl, hdeep _ (by rw [hb, hx]; rfl) fun _ _ => rfl⟩
    | object ms key =>
      cases key with
      | none =>
        have ha : j.afterKey = false := ha
        rw [if_neg (by simp [ha]), if_pos (by rw [hobj, hm1]; rfl)]
        exact ⟨fun c hc => by simp [Doc.lead, Level.lead] at hc, fun _ => rfl⟩
      | some name =>
        have ha : j.afterKey = true := ha
        rw [if_pos ha]
        refine ⟨fun c hc => ?_, fun hc => by simp [Doc.lead, Level.lead] at hc⟩
        obtain rfl : false = c := by simpa [Doc.lead, Level.lead] using hc
        exact ⟨j.hasValue, rfl, hdeep _ (by rw [hm2]; simp [Level.busy]) fun _ _ => rfl⟩

-- ---------------------------------------------------------------------------
-- One call
-- ---------------------------------------------------------------------------

/-- A call behind the text `W` of what was written before this document. -/
inductive CallOutcome (Holds : Nat → S → List Byte → Prop) (sure : Prop) (j : Writer S) (b : Nat)
    (W : List Byte) (d : Doc) (c : Call) : Bool × Writer S → Prop
  | done {j' : Writer S} {d' : Doc} : d.step c = some d' → Sim j' d' →
      Holds (b - (d.delta c).length) j'.sink (W ++ d'.text) →
      CallOutcome Holds sure j b W d c (true, j')
  | misplaced {j' : Writer S} : d.step c = none → j'.failed = true → j'.sink = j.sink →
      CallOutcome Holds sure j b W d c (false, j')
  | broken {j' : Writer S} : ¬ sure → j'.failed = true →
      CallOutcome Holds sure j b W d c (false, j')

/-- A call that has put its text, with the masks as they are then. -/
theorem Puts.done {d : Doc} {c : Call} {j₁ : Writer S} {r : Bool × Writer S} (d' : Doc)
    (h : Puts Holds sure j₁ b (W ++ d.text) (d.delta c) r) (hok : d.Ok)
    (hstep : d.step c = some d') (hsim : ∀ s : S, Sim { j₁ with sink := s } d') :
    CallOutcome Holds sure j b W d c r := by
  cases h with
  | failed hno => exact .broken hno rfl
  | put hs =>
    refine .done hstep (hsim _) ?_
    rw [(Doc.text_step hok hstep).2, ← List.append_assoc]
    exact hs

theorem want_puts (hk : k.Lawful Holds sure) (data : List Byte) (h : Holds b j.sink W)
    (h0 : 0 < data.length) (hs : sure → data.length ≤ b ∧ data.length ≤ runMax) :
    Puts Holds sure j b W data
      (andThen (j.want k data.length) fun j => (true, j.emit k data)) := by
  have hr := want_rooms hk h h0 hs
  generalize j.want k data.length = r at hr
  cases hr with
  | failed hno => exact .failed hno
  | room hh hle => exact .put (hk.write hh hle fun hsure => (hs hsure).1)

theorem waits_add (d : Doc) (hl : d.lead ≠ none) (v : List Byte) :
    (d.add v).open'.head?.elim false Level.waits = false := by
  obtain ⟨root, ls⟩ := d
  cases ls with
  | nil => rfl
  | cons l ls => exact (busy_add (l := l) hl v).2.2

theorem length_add (d : Doc) (v : List Byte) : (d.add v).open'.length = d.open'.length := by
  obtain ⟨root, ls⟩ := d
  cases ls <;> rfl

/-- A value that is written whole: its place, and its text behind the comma. -/
theorem scalar_outcome {d : Doc} (h : Sim j d)
    (hh : Holds b j.sink (W ++ d.text)) {c : Call} {v : List Byte}
    (hroot : ¬ (d.open' = [] ∧ d.root ≠ none))
    (hstep : d.step c = if d.lead ≠ none then some (d.add v) else none)
    (hdelta : d.delta c = comma (d.lead.getD false) ++ v) {f : Bool → Writer S → Bool × Writer S}
    (hf : ∀ lead (j' : Writer S), d.lead = some lead → Holds b j'.sink (W ++ d.text) →
      Puts Holds sure j' b (W ++ d.text) (comma lead ++ v) (f lead j')) :
    CallOutcome Holds sure j b W d c
      (match j.valueLead with
        | (none, j) => (false, j)
        | (some lead, j) => f lead j) := by
  obtain ⟨h1, h2⟩ := valueLead_sim h hroot
  cases hl : d.lead with
  | none =>
    rw [h2 hl]
    exact .misplaced (by rw [hstep, hl]; simp) rfl rfl
  | some lead =>
    obtain ⟨has, he, hdeep⟩ := h1 lead hl
    have hne : d.lead ≠ none := by simp [hl]
    rw [he]
    have hput := hf lead { j with afterKey := false, hasValue := has } hl hh
    rw [show comma lead ++ v = d.delta c by rw [hdelta, hl]; rfl] at hput
    refine hput.done (d.add v) h.ok (by rw [hstep, if_pos hne]) fun s => ?_
    refine ⟨h.live, h.ok.add v, ?_, ?_, (waits_add d hne v).symm, hdeep.masks_add hne v⟩
    · rw [length_add]
      exact h.depth
    · rw [length_add]
      exact h.max

theorem open_outcome (hk : k.Lawful Holds sure) {d : Doc} (h : Sim j d)
    (hh : Holds b j.sink (W ++ d.text)) (object : Bool) {c : Call} {l : Level}
    (hroot : ¬ (d.open' = [] ∧ d.root ≠ none)) (hl : l.isObject = object ∧ l.busy = false ∧
      l.waits = false)
    (hstep : d.step c =
      if d.open'.length < jsonDepth ∧ d.lead ≠ none then some (d.push l) else none)
    (hdelta : d.delta c = comma (d.lead.getD false) ++ [if object then 123 else 91])
    (hs : sure → (d.delta c).length ≤ b) :
    CallOutcome Holds sure j b W d c (j.openLevel k object) := by
  unfold openLevel
  rw [if_neg (by simp [h.live])]
  by_cases hmax : j.depth = jsonDepth
  · rw [if_pos hmax]
    have hm : ¬ d.open'.length < jsonDepth := by
      rw [← h.depth, hmax]
      omega
    exact .misplaced (by rw [hstep, if_neg fun hx => hm hx.1]) rfl rfl
  rw [if_neg hmax]
  have hlt : d.open'.length < jsonDepth := by
    have := h.max
    have := h.depth
    omega
  obtain ⟨h1, h2⟩ := valueLead_sim h hroot
  cases hd : d.lead with
  | none =>
    rw [h2 hd]
    exact .misplaced (by rw [hstep, hd]; simp) rfl rfl
  | some lead =>
    obtain ⟨has, he, hdeep⟩ := h1 lead hd
    have hne : d.lead ≠ none := by simp [hd]
    rw [hd] at hdelta
    have hdelta : d.delta c = comma lead ++ [if object then 123 else 91] := hdelta
    have hlen : (d.delta c).length = (comma lead).length + 1 := by
      rw [hdelta, List.length_append, List.length_singleton]
    have hsmall : (comma lead).length ≤ 1 := by cases lead <;> simp [comma]
    rw [he]
    dsimp only
    generalize hj : ({ j with
      afterKey := false
      hasValue := has &&& ~~~(bit { j with depth := j.depth + 1 })
      isObject := if object then j.isObject ||| bit { j with depth := j.depth + 1 }
        else j.isObject &&& ~~~(bit { j with depth := j.depth + 1 })
      depth := j.depth + 1 } : Writer S) = j₁
    have hput := want_puts hk (j := j₁) (b := b) (W := W ++ d.text) (d.delta c)
      (by rw [← hj]; exact hh) (by omega) fun hsure => ⟨hs hsure, by
        have : runMax = 1024 := rfl
        omega⟩
    rw [hlen] at hput
    have hout := Puts.done (j := j) (d.push l) hput h.ok (by rw [hstep, if_pos ⟨hlt, hne⟩])
      fun s => ?_
    · rw [← hdelta]
      subst hj
      exact hout
    · have hdlt : j.depth + 1 < 64 := by
        have := h.depth
        have : jsonDepth = 63 := rfl
        omega
      have hdep := h.depth
      subst hj
      refine ⟨h.live, h.ok.push hne l, congrArg (· + 1) h.depth, hlt, hl.2.2.symm, ?_, ?_, ?_⟩
      · show BitVec.getLsbD (if object = true then _ else _) _ = _
        rw [← hdep, hl.1]
        cases object with
        | true =>
          rw [if_pos rfl, bit, getLsbD_or_bit _ hdlt]
          simp
        | false =>
          rw [if_neg (by simp), bit, getLsbD_clear_bit _ hdlt]
          simp
      · rw [← hdep, hl.2.1]
        show BitVec.getLsbD (_ &&& _) _ = _
        rw [bit, getLsbD_clear_bit _ hdlt]
        simp
      · refine hdeep.congr (fun i hi => ?_) fun i hi => ?_
        · have hne : i ≠ j.depth + 1 := by omega
          show BitVec.getLsbD (if object = true then _ else _) _ = _
          cases object with
          | true =>
            rw [if_pos rfl, bit, getLsbD_or_bit _ hdlt]
            simp [hne]
          | false =>
            rw [if_neg (by simp), bit, getLsbD_clear_bit _ hdlt]
            simp [hne]
        · have hne : i ≠ j.depth + 1 := by omega
          show BitVec.getLsbD (_ &&& _) _ = _
          rw [bit, getLsbD_clear_bit _ hdlt]
          simp [hne]

theorem end_outcome (hk : k.Lawful Holds sure) {d : Doc} (h : Sim j d)
    (hh : Holds b j.sink (W ++ d.text)) (hs : sure → (d.delta .endLevel).length ≤ b) :
    CallOutcome Holds sure j b W d .endLevel (j.endLevel k) := by
  unfold endLevel
  rw [if_neg (by simp [h.live])]
  have hbit := and_bit_ne_zero j.isObject h.depth_lt
  obtain ⟨root, ls⟩ := d
  cases ls with
  | nil =>
    rw [if_pos (.inl h.depth)]
    exact .misplaced rfl rfl rfl
  | cons l ls =>
    have hd : j.depth = ls.length + 1 := h.depth
    obtain ⟨hm1, -, hm3⟩ := h.masks
    have ha : j.afterKey = l.waits := h.after
    by_cases hw : l.waits = true
    · rw [if_pos (.inr (ha.trans hw))]
      exact .misplaced (if_pos hw) rfl rfl
    rw [if_neg (by rw [ha, not_or]; exact ⟨by omega, hw⟩)]
    have hobj : (j.isObject &&& j.bit ≠ 0) = (l.isObject = true) := by
      rw [bit, eq_iff_iff, hbit, hd, hm1]
    simp only [hobj]
    have hput := want_puts hk (j := { j with depth := j.depth - 1 }) [l.closing] hh (by simp)
      fun hsure => ⟨hs hsure, by show 1 ≤ 1024; omega⟩
    refine Puts.done (j := j) ((⟨root, ls⟩ : Doc).add (l.text ++ [l.closing])) hput h.ok
      (if_neg hw) fun s => ?_
    obtain ⟨hroot, hb⟩ := h.ok.below
    have hmax := h.max
    rw [List.length_cons] at hmax
    have hlead : Doc.lead ⟨root, ls⟩ ≠ none := by
      cases ls with
      | nil => simp [Doc.lead, hroot]
      | cons l' ls => exact h.ok.2 l' (by simp)
    refine ⟨h.live, hb.add _, ?_, ?_, ?_, hm3.masks_add hlead _⟩
    · rw [length_add]
      show j.depth - 1 = ls.length
      omega
    · rw [length_add]
      show ls.length ≤ _
      omega
    · rw [waits_add _ hlead]
      exact ha.trans (by simpa using hw)

theorem key_outcome (hk : k.Lawful Holds sure) {d : Doc} (h : Sim j d)
    (hh : Holds b j.sink (W ++ d.text)) (name : List Byte)
    (hs : sure → (d.delta (.key name)).length ≤ b) :
    CallOutcome Holds sure j b W d (.key name) (j.keyN k name) := by
  unfold keyN
  rw [if_neg (by simp [h.live])]
  have hlt := h.depth_lt
  have hbit := and_bit_ne_zero j.isObject hlt
  have hval := and_bit_ne_zero j.hasValue hlt
  have hset := getLsbD_or_bit j.hasValue hlt
  obtain ⟨root, ls⟩ := d
  -- a name has its place in an object that does not wait for a value
  have hno (hx : ¬ j.isObject.getLsbD j.depth = true ∨ j.afterKey = true)
      (hstep : Doc.step ⟨root, ls⟩ (.key name) = none) :
      CallOutcome Holds sure j b W ⟨root, ls⟩ (.key name)
        (if ¬ j.isObject &&& j.bit ≠ 0 ∨ j.afterKey = true then (false, { j with failed := true })
          else andThen (putString k { j with hasValue := j.hasValue ||| j.bit }
            (decide (j.hasValue &&& j.bit ≠ 0)) name [58])
            fun j => (true, { j with afterKey := true })) := by
    rw [if_pos (by rw [bit, hbit]; exact hx)]
    exact .misplaced hstep rfl rfl
  cases ls with
  | nil =>
    obtain ⟨hm1, -⟩ := h.masks
    exact hno (.inl (by rw [show j.depth = 0 from h.depth, hm1]; simp)) rfl
  | cons l ls =>
    have hd : j.depth = ls.length + 1 := h.depth
    obtain ⟨hm1, hm2, hm3⟩ := h.masks
    rw [← hd] at hm1 hm2
    cases l with
    | array xs => exact hno (.inl (by rw [hm1]; simp [Level.isObject])) rfl
    | object ms key =>
      cases key with
      | some name' => exact hno (.inr h.after) rfl
      | none =>
        have ha : j.afterKey = false := h.after
        rw [if_neg (by rw [bit, hbit, hm1, ha]; simp [Level.isObject])]
        have hlead : decide (j.hasValue &&& j.bit ≠ 0) = (Level.object ms none).busy := by
          rw [← hm2, bit, Bool.eq_iff_iff, decide_eq_true_eq, hval]
        have hdelta : Doc.delta ⟨root, .object ms none :: ls⟩ (.key name) =
            comma (Level.object ms none).busy ++ (quoted name ++ [58]) := by
          simp [Doc.delta]
        dsimp only
        rw [hlead]
        have hput := putString_puts hk (j := { j with hasValue := j.hasValue ||| j.bit })
          (Level.object ms none).busy name [58] hh (by rw [← hdelta]; exact hs)
        rw [← hdelta] at hput
        generalize putString k { j with hasValue := j.hasValue ||| j.bit } _ name [58] = r at hput
        cases hput with
        | failed hb => exact .broken hb rfl
        | put hs' =>
          have hstep : Doc.step ⟨root, .object ms none :: ls⟩ (.key name) =
              some ⟨root, .object ms (some (quoted name)) :: ls⟩ := rfl
          obtain ⟨hok, htext⟩ := Doc.text_step h.ok hstep
          refine .done hstep ⟨h.live, hok, h.depth, h.max, rfl, ?_, ?_, ?_⟩ ?_
          · rw [← hd]
            exact hm1
          · rw [← hd]
            show BitVec.getLsbD (_ ||| _) _ = _
            rw [bit, hset]
            simp [Level.busy]
          · refine hm3.congr (fun _ _ => rfl) fun i hi => ?_
            have : i ≠ j.depth := by omega
            show BitVec.getLsbD (_ ||| _) _ = _
            rw [bit, hset]
            simp [this]
          · rw [htext, ← List.append_assoc]
            exact hs'

/-- The texts of numbers are short. -/
def Short : Call → Prop
  | .number text => ∀ t ∈ text, t.length < 32 ∧ t ≠ []
  | _ => True

theorem length_digits (v : Nat) : 0 < (digits v).length ∧ (digits v).length ≤ 24 := by
  refine ⟨?_, Http.putDigits_size ..⟩
  unfold digits Http.putDigits
  simp

theorem length_comma (lead : Bool) : (comma lead).length ≤ 1 := by cases lead <;> simp [comma]

theorem putValue_outcome (hk : k.Lawful Holds sure) {d : Doc} (h : Sim j d)
    (hh : Holds b j.sink (W ++ d.text)) {c : Call} {v : List Byte}
    (hroot : ¬ (d.open' = [] ∧ d.root ≠ none)) (hv : 0 < v.length ∧ v.length ≤ 32)
    (hstep : d.step c = if d.lead ≠ none then some (d.add v) else none)
    (hdelta : d.delta c = comma (d.lead.getD false) ++ v) (hs : sure → (d.delta c).length ≤ b) :
    CallOutcome Holds sure j b W d c (j.putValue k v) := by
  refine scalar_outcome h hh hroot hstep hdelta fun lead j' hl hh' => ?_
  rw [hdelta, hl] at hs
  have hp := want_puts hk (comma lead ++ v) hh' (by rw [List.length_append]; omega)
    fun hsure => ⟨hs hsure, by
      have := length_comma lead
      have : runMax = 1024 := rfl
      rw [List.length_append]
      omega⟩
  rwa [List.length_append] at hp

/-- Every call, on a document that a second value at the root is not asked of. -/
theorem call_outcome (hk : k.Lawful Holds sure) {d : Doc} (h : Sim j d)
    (hh : Holds b j.sink (W ++ d.text)) (c : Call) (hc : Short c) (hroot : ¬ Second d c)
    (hs : sure → (d.delta c).length ≤ b) :
    CallOutcome Holds sure j b W d c (j.call k c) := by
  have hr (hb : brings c = true) : ¬ (d.open' = [] ∧ d.root ≠ none) := fun hx =>
    hroot ⟨hx.1, hx.2, hb⟩
  cases c with
  | object => exact open_outcome hk h hh true (hr rfl) ⟨rfl, rfl, rfl⟩ rfl rfl hs
  | array => exact open_outcome hk h hh false (hr rfl) ⟨rfl, rfl, rfl⟩ rfl rfl hs
  | endLevel => exact end_outcome hk h hh hs
  | key name => exact key_outcome hk h hh name hs
  | string t =>
    refine scalar_outcome h hh (hr rfl) rfl rfl fun lead j' hl hh' => ?_
    have hs : sure → (comma lead ++ (quoted t ++ [])).length ≤ b := fun hsure => by
      have := hs hsure
      rw [show d.delta (.string t) = comma (d.lead.getD false) ++ quoted t from rfl, hl] at this
      simpa using this
    have hp := putString_puts hk lead t [] hh' hs
    rwa [List.append_nil] at hp
  | int v =>
    refine putValue_outcome hk h hh (hr rfl) ?_ rfl rfl hs
    have := length_digits (magnitude v.toInt)
    unfold intText
    split
    · rw [List.length_cons]
      omega
    · omega
  | uint v =>
    have := length_digits v.toNat
    exact putValue_outcome hk h hh (hr rfl) (by omega) rfl rfl hs
  | bool v => exact putValue_outcome hk h hh (hr rfl) (by cases v <;> decide) rfl rfl hs
  | null => exact putValue_outcome hk h hh (hr rfl) (by decide) rfl rfl hs
  | number text =>
    cases text with
    | none => exact .misplaced rfl rfl rfl
    | some t =>
      obtain ⟨h1, h2⟩ := hc t rfl
      have := List.length_pos_iff.mpr h2
      exact putValue_outcome hk h hh (hr rfl) (by omega) rfl rfl hs
  | raw json =>
    unfold call raw
    dsimp only
    by_cases h0 : json = []
    · rw [if_pos h0]
      refine .misplaced ?_ rfl rfl
      rw [Doc.step, show Doc.scalar (.raw json) = none from if_pos h0]
      all_goals simp
    · rw [if_neg h0]
      have hsc : Doc.scalar (.raw json) = some json := if_neg h0
      have hdelta : d.delta (.raw json) = comma (d.lead.getD false) ++ json := by
        show _ ++ (Doc.scalar (.raw json)).getD [] = _
        rw [hsc]
        rfl
      have hb : brings (.raw json) = true := by
        cases json with
        | nil => exact absurd rfl h0
        | cons c json => rfl
      refine scalar_outcome (v := json) h hh (hr hb) ?_ hdelta fun lead j' hl hh' => ?_
      · rw [Doc.step, hsc]
        all_goals simp
      have hs : sure → (comma lead).length + json.length ≤ b := fun hsure => by
        have := hs hsure
        rw [hdelta, hl] at this
        simpa using this
      refine Puts.andThen (lead_puts hk hh' fun hsure => ?_) fun s hh => put_puts hk hh fun hsure => ?_
      · have := hs hsure
        omega
      · have := hs hsure
        omega

end Writer

end Ioxd.Json
