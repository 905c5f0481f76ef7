import Ioxd.Http.Request
import Ioxd.Http.TextLaws
import Mathlib.Data.List.Basic

/-!
# Which requests are accepted, and with what framing

The rule itself, over the values a list of headers gives a name, and that
`fill_request` follows it: the flags that `pick_headers` sets over its one pass
amount to conditions on those values.
-/

namespace Ioxd.Http

open Flat Numeral
open Ioxd.Pipe (Byte)

-- ---------------------------------------------------------------------------
-- The rule
-- ---------------------------------------------------------------------------

def Header.key (h : Header) : Option (List Byte) := h.name.map (·.map lowerAscii)

/-- The values of the headers with this name, in any case. -/
def values (name : List Byte) (headers : List Header) : List (List Byte) :=
  headers.filterMap fun h => if h.key = some name then some h.value else none

structure Framing where
  chunked : Bool
  length : Nat
  deriving DecidableEq

/-- A list of headers and the framing it gives the body. -/
inductive Framed (headers : List Header) : Framing → Prop
  | neither : values (str "transfer-encoding") headers = [] →
      values (str "content-length") headers = [] → Framed headers ⟨false, 0⟩
  | length {v : List Byte} {n : Nat} : values (str "transfer-encoding") headers = [] →
      values (str "content-length") headers ≠ [] →
      (∀ w ∈ values (str "content-length") headers, w = v) → Decimal v n → n ≤ sizeMax →
      Framed headers ⟨false, n⟩
  | chunked {v : List Byte} : values (str "content-length") headers = [] →
      values (str "transfer-encoding") headers = [v] →
      (tokens v).map (·.map lowerAscii) = [str "chunked"] → Framed headers ⟨true, 0⟩

structure Accepts (minorVersion : Nat) (headers : List Header) (queryWhole : Prop) : Prop where
  unfolded : ∀ h ∈ headers, h.name ≠ none
  expects : ∀ v ∈ values (str "expect") headers, v.map lowerAscii = str "100-continue"
  query : queryWhole
  hosts : if minorVersion ≥ 1 then (values (str "host") headers).length = 1
    else (values (str "host") headers).length ≤ 1
  framed : ∃ fr, Framed headers fr

/-- The query of a target fits the parameters and their arena. -/
def QueryWhole (target : List Byte) (arena : Mem Byte) (arenaCap : Nat) : Prop :=
  (kvParse (((originTarget target).dropWhile (· != 63)).drop 1) maxParams arena arenaCap).lost = false

theorem values_perm {hs hs' : List Header} (h : hs.Perm hs') (name : List Byte) :
    (values name hs).Perm (values name hs') := h.filterMap _

theorem Framed.perm {hs hs' : List Header} (h : hs.Perm hs') (hf : Framed hs fr) :
    Framed hs' fr := by
  have hte := values_perm h (str "transfer-encoding")
  have hcl := values_perm h (str "content-length")
  cases hf with
  | neither h1 h2 =>
    rw [h1] at hte
    rw [h2] at hcl
    exact .neither hte.nil_eq.symm hcl.nil_eq.symm
  | length h1 h2 h3 h4 h5 =>
    rw [h1] at hte
    refine .length hte.nil_eq.symm (fun hn => ?_) (fun w hw => h3 w (hcl.mem_iff.mpr hw)) h4 h5
    rw [hn] at hcl
    exact h2 hcl.eq_nil
  | chunked h1 h2 h3 =>
    rw [h1] at hcl
    rw [h2] at hte
    exact .chunked hcl.nil_eq.symm hte.singleton_eq.symm h3

theorem Accepts.perm {hs hs' : List Header} (h : hs.Perm hs') (ha : Accepts minor hs q) :
    Accepts minor hs' q where
  unfolded x hx := ha.unfolded x (h.mem_iff.mpr hx)
  expects v hv := ha.expects v ((values_perm h _).mem_iff.mpr hv)
  query := ha.query
  hosts := (values_perm h (str "host")).length_eq ▸ ha.hosts
  framed := ha.framed.imp fun _ hf => hf.perm h

theorem Framed.unique (h : Framed hs fr) (h' : Framed hs fr') : fr = fr' := by
  cases h with
  | neither h1 h2 =>
    cases h' with
    | neither => rfl
    | length _ h2' => exact absurd h2 h2'
    | chunked _ h2' => rw [h1] at h2'; cases h2'
  | @length v n h1 h2 h3 h4 =>
    cases h' with
    | neither _ h2' => exact absurd h2' h2
    | @length v' n' _ _ h3' h4' =>
      obtain ⟨w, hw⟩ := List.exists_mem_of_ne_nil _ h2
      obtain rfl : v = v' := (h3 w hw).symm.trans (h3' w hw)
      obtain rfl : n = n' := h4.2.2.symm.trans h4'.2.2
      rfl
    | chunked h1' => exact absurd h1' h2
  | chunked h1 h2 =>
    cases h' with
    | neither h1' => rw [h2] at h1'; cases h1'
    | length _ h2' => exact absurd h1 h2'
    | chunked => rfl

-- ---------------------------------------------------------------------------
-- What the pass over the headers picks
-- ---------------------------------------------------------------------------

theorem eqCi_iff {a lit : List Byte} (h : lit.map lowerAscii = lit) :
    eqCi a lit = true ↔ a.map lowerAscii = lit := by
  unfold eqCi
  rw [h, Bool.and_eq_true, beq_iff_eq, beq_iff_eq]
  refine ⟨fun hx => hx.2, fun hx => ⟨?_, hx⟩⟩
  rw [← hx, List.length_map]

def lastChunked (toks : List (List Byte)) : Bool := toks.getLast?.any (eqCi · (str "chunked"))

/-- A token that is not a final `chunked`. -/
def othersIn (toks : List (List Byte)) : Bool := decide (toks.length > 1) || !toks.isEmpty && !lastChunked toks

theorem pickTokens_eq (rest : List Byte) (any : Bool) (picked : PickedHeaders) :
    pickTokens rest any picked = (any || !(tokens rest).isEmpty, { picked with
      teLastChunked := picked.teLastChunked || lastChunked (tokens rest)
      teOther := picked.teOther || othersIn (tokens rest) }) := by
  fun_induction pickTokens rest any picked with
  | case1 rest any picked h =>
    simp [nextToken_none h, lastChunked, othersIn]
  | case2 rest any picked tok rest' h last ih =>
    simp only [dite_eq_ite] at ih
    rw [ih, nextToken_some h]
    simp only [last, nextToken_isNone]
    cases ht : tokens rest' with
    | nil =>
      cases hc : eqCi tok (str "chunked") <;> simp [lastChunked, othersIn, hc]
    | cons t ts => simp [lastChunked, othersIn, List.getLast?_cons_cons]

/-- One token, and it is `chunked`. -/
def IsChunked (value : List Byte) : Prop := (tokens value).map (·.map lowerAscii) = [str "chunked"]

theorem isChunked_iff {value : List Byte} (hne : tokens value ≠ []) :
    IsChunked value ↔ othersIn (tokens value) = false ∧ lastChunked (tokens value) = true := by
  unfold IsChunked
  match ht : tokens value with
  | [] => exact absurd ht hne
  | [t] =>
    rw [List.map_cons, List.map_nil, List.cons.injEq, ← eqCi_iff (by decide)]
    simp [lastChunked, othersIn]
  | t :: t' :: ts => simp [othersIn]

structure Picks (hs : List Header) (p : PickedHeaders) : Prop where
  refuse : p.refuse = 0 ↔ (∀ h ∈ hs, h.name ≠ none) ∧
    (∀ v ∈ values (str "expect") hs, v.map lowerAscii = str "100-continue") ∧
    (∀ v ∈ values (str "content-length") hs, ∀ w ∈ values (str "content-length") hs, v = w) ∧
    ∀ v ∈ values (str "transfer-encoding") hs, tokens v ≠ []
  nHost : p.nHost = (values (str "host") hs).length
  nLength : p.nContentLength = (values (str "content-length") hs).length
  length : values (str "content-length") hs ≠ [] →
    (values (str "content-length") hs).getLast? = some p.contentLength
  nTransfer : p.nTransferEnc = (values (str "transfer-encoding") hs).length
  none : values (str "transfer-encoding") hs = [] → p.teOther = false ∧ p.teLastChunked = false
  one {v : List Byte} : values (str "transfer-encoding") hs = [v] →
    p.teOther = othersIn (tokens v) ∧ p.teLastChunked = lastChunked (tokens v)
  -- an empty line is refused, and any other leaves one of the two flags
  flags : p.refuse = 0 → values (str "transfer-encoding") hs ≠ [] →
    p.teOther = true ∨ p.teLastChunked = true
  more : p.refuse = 0 → 2 ≤ (values (str "transfer-encoding") hs).length → p.teOther = true

theorem values_append (name : List Byte) (hs : List Header) (h : Header) :
    values name (hs ++ [h]) = values name hs ++ if h.key = some name then [h.value] else [] := by
  unfold values
  rw [List.filterMap_append, List.filterMap_cons, List.filterMap_nil]
  split <;> rename_i heq <;> split at heq <;> simp_all

section Step

variable {hs : List Header} {p q : PickedHeaders} {h : Header}

/-- The four lists of values, of which at most the one named has grown. -/
theorem values_step (hs : List Header) (hkey : h.key = some name) :
    values (str "host") (hs ++ [h]) =
        values (str "host") hs ++ (if name = str "host" then [h.value] else []) ∧
      values (str "expect") (hs ++ [h]) =
        values (str "expect") hs ++ (if name = str "expect" then [h.value] else []) ∧
      values (str "content-length") (hs ++ [h]) =
        values (str "content-length") hs ++ (if name = str "content-length" then [h.value] else []) ∧
      values (str "transfer-encoding") (hs ++ [h]) =
        values (str "transfer-encoding") hs ++
          (if name = str "transfer-encoding" then [h.value] else []) := by
  simp only [values_append, hkey, Option.some.injEq, and_self]

theorem named_append (hkey : h.key = some name) :
    (∀ x ∈ hs ++ [h], x.name ≠ none) ↔ ∀ x ∈ hs, x.name ≠ none := by
  have hname : h.name ≠ none := by
    intro hn
    simp [Header.key, hn] at hkey
  simp only [List.mem_append, List.mem_singleton]
  grind

/-- A header that is not looked at, or whose picking leaves what is. -/
theorem picks_same (hp : Picks hs p) (hkey : h.key = some name)
    (hname : name ≠ str "host" ∧ name ≠ str "expect" ∧ name ≠ str "content-length" ∧
      name ≠ str "transfer-encoding")
    (hq : q.refuse = p.refuse ∧ q.nHost = p.nHost ∧ q.nContentLength = p.nContentLength ∧
      q.contentLength = p.contentLength ∧ q.nTransferEnc = p.nTransferEnc ∧
      q.teOther = p.teOther ∧ q.teLastChunked = p.teLastChunked) :
    Picks (hs ++ [h]) q := by
  obtain ⟨e1, e2, e3, e4, e5, e6, e7⟩ := hq
  obtain ⟨v1, v2, v3, v4⟩ := values_step hs hkey
  obtain ⟨n1, n2, n3, n4⟩ := hname
  obtain ⟨h1, h2, h3, h4, h5, h6, h7, h8, h9⟩ := hp
  simp only [n1, n2, n3, n4, if_false, List.append_nil] at v1 v2 v3 v4
  constructor
  all_goals simp only [v1, v2, v3, v4, e1, e2, e3, e4, e5, e6, e7, named_append hkey]
  all_goals assumption

theorem picks_host (hp : Picks hs p) (hkey : h.key = some (str "host")) :
    Picks (hs ++ [h]) { p with nHost := p.nHost + 1 } := by
  obtain ⟨v1, v2, v3, v4⟩ := values_step hs hkey
  obtain ⟨h1, h2, h3, h4, h5, h6, h7, h8, h9⟩ := hp
  rw [if_pos rfl] at v1
  rw [if_neg (by decide), List.append_nil] at v2 v3 v4
  constructor
  all_goals simp only [v1, v2, v3, v4, named_append hkey]
  all_goals try assumption
  rw [h2, List.length_append, List.length_singleton]

theorem picks_expect (hp : Picks hs p) (hkey : h.key = some (str "expect")) :
    Picks (hs ++ [h]) (pickExpect p h.value) := by
  obtain ⟨v1, v2, v3, v4⟩ := values_step hs hkey
  obtain ⟨h1, h2, h3, h4, h5, h6, h7, h8, h9⟩ := hp
  rw [if_pos rfl] at v2
  rw [if_neg (by decide), List.append_nil] at v1 v3 v4
  have hci := eqCi_iff (a := h.value) (show (str "100-continue").map lowerAscii = _ by decide)
  unfold pickExpect
  split
  all_goals
    constructor
    all_goals simp only [v1, v2, v3, v4, named_append hkey]
    all_goals try assumption
  · simp only [h1, List.mem_append, List.mem_singleton]
    grind
  · simp only [List.mem_append, List.mem_singleton]
    grind
  · simp
  · simp

theorem picks_contentLength (hp : Picks hs p) (hkey : h.key = some (str "content-length")) :
    Picks (hs ++ [h]) (pickContentLength p h.value) := by
  obtain ⟨v1, v2, v3, v4⟩ := values_step hs hkey
  obtain ⟨h1, h2, h3, h4, h5, h6, h7, h8, h9⟩ := hp
  rw [if_pos rfl] at v3
  rw [if_neg (by decide), List.append_nil] at v1 v2 v4
  -- one more value is fine when it is the last one again
  have hrep : (p.nContentLength ≠ 0 ∧ h.value ≠ p.contentLength) ↔
      ∃ w, (values (str "content-length") hs).getLast? = some w ∧ h.value ≠ w := by
    rw [h3, ne_eq, List.length_eq_zero_iff]
    constructor
    · rintro ⟨hn, hw⟩
      exact ⟨_, h4 hn, hw⟩
    · rintro ⟨w, hw, hne⟩
      have hn : values (str "content-length") hs ≠ [] := by
        intro hn
        simp [hn] at hw
      have := h4 hn
      grind
  have hlast : ∀ w, (values (str "content-length") hs).getLast? = some w →
      w ∈ values (str "content-length") hs := fun w hw => List.mem_of_getLast? hw
  have hnil : (values (str "content-length") hs).getLast? = none →
      values (str "content-length") hs = [] := List.getLast?_eq_none_iff.mp
  unfold pickContentLength
  dsimp only
  split
  all_goals
    constructor
    all_goals simp only [v1, v2, v3, v4, named_append hkey]
    all_goals try assumption
  case isTrue.refuse hr =>
    obtain ⟨w, hw, hne⟩ := hrep.mp hr
    refine ⟨nofun, fun ⟨_, _, hc, _⟩ => ?_⟩
    exact absurd (hc h.value (by simp) w (by simp [hlast w hw])) hne
  case isFalse.refuse hr =>
    rw [hrep] at hr
    simp only [h1, List.mem_append, List.mem_singleton]
    cases hl : (values (str "content-length") hs).getLast? with
    | none =>
      have := hnil hl
      grind
    | some w =>
      have := hlast w hl
      grind
  all_goals simp [h3]

theorem pickTransferEncoding_eq (p : PickedHeaders) (value : List Byte) :
    pickTransferEncoding p value = { p with
      nTransferEnc := p.nTransferEnc + 1
      teOther := p.teOther || p.teLastChunked || othersIn (tokens value)
      teLastChunked := lastChunked (tokens value)
      refuse := if tokens value = [] then 400 else p.refuse } := by
  unfold pickTransferEncoding
  simp only [pickTokens_eq]
  cases ht : tokens value <;> cases hl : p.teLastChunked <;> simp

theorem picks_transferEncoding (hp : Picks hs p) (hkey : h.key = some (str "transfer-encoding")) :
    Picks (hs ++ [h]) (pickTransferEncoding p h.value) := by
  obtain ⟨v1, v2, v3, v4⟩ := values_step hs hkey
  obtain ⟨h1, h2, h3, h4, h5, h6, h7, h8, h9⟩ := hp
  rw [if_pos rfl] at v4
  rw [if_neg (by decide), List.append_nil] at v1 v2 v3
  rw [pickTransferEncoding_eq]
  constructor
  all_goals simp only [v1, v2, v3, v4, named_append hkey]
  all_goals try assumption
  case refuse =>
    simp only [List.mem_append, List.mem_singleton]
    split
    · refine ⟨nofun, fun ⟨_, _, _, ht⟩ => ?_⟩
      exact absurd ‹_› (ht h.value (.inr rfl))
    · rw [h1]
      grind
  case nTransfer => rw [h5, List.length_append, List.length_singleton]
  case none => simp
  case one =>
    intro v hv
    obtain ⟨hnil, rfl⟩ : values (str "transfer-encoding") hs = [] ∧ h.value = v := by
      simpa [List.append_eq_singleton_iff] using hv
    simp [h6 hnil]
  case flags =>
    intro hr _
    have hne : tokens h.value ≠ [] := fun ht => by simp [ht] at hr
    cases hl : lastChunked (tokens h.value) <;> simp [othersIn, hl, hne]
  case more =>
    intro hr hlen
    have hr' : p.refuse = 0 := by
      split at hr
      · cases hr
      · exact hr
    have hne : values (str "transfer-encoding") hs ≠ [] := fun hn => by simp [hn] at hlen
    rcases h8 hr' hne with hf | hf <;> simp [hf]

theorem picks_folded (hp : Picks hs p) (hname : h.name = none) :
    Picks (hs ++ [h]) { p with refuse := 400 } := by
  have hv (name : List Byte) : values name (hs ++ [h]) = values name hs := by
    rw [values_append, if_neg (by simp [Header.key, hname]), List.append_nil]
  obtain ⟨h1, h2, h3, h4, h5, h6, h7, h8, h9⟩ := hp
  constructor
  all_goals simp only [hv]
  all_goals try assumption
  case refuse =>
    refine ⟨nofun, fun ⟨hn, _⟩ => ?_⟩
    exact absurd hname (hn h (by simp))
  all_goals nofun

theorem picks_step (hp : Picks hs p) (h : Header) : Picks (hs ++ [h]) (pickHeader p h) := by
  unfold pickHeader
  cases hn : h.name with
  | none => exact picks_folded hp hn
  | some n =>
    have hkey : h.key = some (n.map lowerAscii) := by simp [Header.key, hn]
    have ascii (lit : List Byte) (hlit : lit.all (·.toNat < 128) = true) :
        lowerInplace n = lit ↔ n.map lowerAscii = lit := lowerInplace_eq_iff (by simpa using hlit)
    have key (lit : List Byte) (hlit : lit.all (·.toNat < 128) = true) (he : lowerInplace n = lit) :
        h.key = some lit := by rw [hkey, (ascii lit hlit).mp he]
    have other (lit : List Byte) (hlit : lit.all (·.toNat < 128) = true)
        (he : ¬ lowerInplace n = lit) : n.map lowerAscii ≠ lit := fun hx =>
      he ((ascii lit hlit).mpr hx)
    dsimp only
    split
    · exact picks_host hp (key _ (by decide) ‹_›)
    rename_i n1
    split
    · exact picks_expect hp (key _ (by decide) ‹_›)
    rename_i n2
    split
    · have hc := key (str "connection") (by decide) ‹_›
      refine picks_same hp hc (by decide) ?_
      unfold pickConnection
      cases tokenPresentCi h.value (str "close") <;>
        cases tokenPresentCi h.value (str "keep-alive") <;> simp
    split
    · exact picks_contentLength hp (key _ (by decide) ‹_›)
    rename_i n3
    split
    · exact picks_transferEncoding hp (key _ (by decide) ‹_›)
    rename_i n4
    exact picks_same hp hkey ⟨other _ (by decide) n1, other _ (by decide) n2,
      other _ (by decide) n3, other _ (by decide) n4⟩ ⟨rfl, rfl, rfl, rfl, rfl, rfl, rfl⟩

end Step

theorem picks_nil : Picks [] .none := by
  constructor <;> simp [values, PickedHeaders.none]

theorem picks_run {hs : List Header} {p : PickedHeaders} (hp : Picks hs p) (more : List Header) :
    Picks (hs ++ more) (more.foldl pickHeader p) := by
  induction more generalizing hs p with
  | nil => rwa [List.append_nil]
  | cons h more ih =>
    have := ih (picks_step hp h)
    rwa [List.append_assoc] at this

theorem pickHeaders_picks (hs : List Header) : Picks hs (pickHeaders hs).1 := picks_run picks_nil hs

-- ---------------------------------------------------------------------------
-- The framing
-- ---------------------------------------------------------------------------

def Request.framing (req : Request) : Framing := ⟨req.chunked, req.contentLength⟩

theorem frame_chunked {p : PickedHeaders} {req : Request} (hp : Picks hs p) (hr : p.refuse = 0)
    (hreq : req.framing = ⟨false, 0⟩) (hte : values (str "transfer-encoding") hs ≠ []) :
    ((frame req p).1 = 0 → Framed hs (frame req p).2.framing) ∧
      ((frame req p).1 ≠ 0 → (frame req p).2.framing = ⟨false, 0⟩ ∧ ∀ fr, ¬ Framed hs fr) := by
  have hcond := hp.refuse.mp hr
  -- only the third rule can apply, and it needs one line
  have hno (h : ∀ v, values (str "content-length") hs = [] →
      values (str "transfer-encoding") hs = [v] → IsChunked v → False) (fr : Framing) :
      ¬ Framed hs fr := by
    rintro (⟨h1, -⟩ | ⟨h1, -⟩ | ⟨h1, h2, h3⟩)
    · exact hte h1
    · exact hte h1
    · exact h _ h1 h2 h3
  have hone {v : List Byte} (hv : values (str "transfer-encoding") hs = [v]) :
      IsChunked v ↔ p.teOther = false ∧ p.teLastChunked = true := by
    rw [isChunked_iff (hcond.2.2.2 v (by simp [hv])), (hp.one hv).1, (hp.one hv).2]
  have hreq' := Framing.mk.inj hreq
  unfold frame
  rw [if_pos (by rw [hp.nTransfer]; simpa using hte)]
  split
  · rename_i hcl
    rw [hp.nLength, ne_eq, List.length_eq_zero_iff] at hcl
    exact ⟨nofun, fun _ => ⟨hreq, hno fun v h1 _ _ => hcl h1⟩⟩
  rename_i hcl
  split
  · rename_i hto
    exact ⟨nofun, fun _ => ⟨hreq, hno fun v _ h2 h3 => by simp [hto] at hone; exact hone h2 h3⟩⟩
  rename_i hto
  split
  · rename_i hlc
    exact ⟨nofun, fun _ => ⟨hreq, hno fun v _ h2 h3 => hlc ((hone h2).mp h3).2⟩⟩
  rename_i hlc
  refine ⟨fun _ => ?_, fun hn => absurd rfl hn⟩
  have hlt : ¬ 2 ≤ (values (str "transfer-encoding") hs).length := fun hlen => hto (hp.more hr hlen)
  have hpos := List.length_pos_iff.mpr hte
  obtain ⟨v, hv⟩ := List.length_eq_one_iff.mp
    (show (values (str "transfer-encoding") hs).length = 1 by omega)
  rw [hp.nLength, ne_eq, List.length_eq_zero_iff, not_not] at hcl
  have := Framed.chunked hcl hv ((hone hv).mpr ⟨by simpa using hto, by simpa using hlc⟩)
  rwa [← hreq'.2] at this

theorem frame_length {p : PickedHeaders} {req : Request} (hp : Picks hs p) (hr : p.refuse = 0)
    (hreq : req.framing = ⟨false, 0⟩) (hte : values (str "transfer-encoding") hs = []) :
    ((frame req p).1 = 0 → Framed hs (frame req p).2.framing) ∧
      ((frame req p).1 ≠ 0 → (frame req p).2.framing = ⟨false, 0⟩ ∧ ∀ fr, ¬ Framed hs fr) := by
  have hcond := hp.refuse.mp hr
  have hreq' := Framing.mk.inj hreq
  unfold frame
  rw [if_neg (by rw [hp.nTransfer, hte]; simp)]
  by_cases hcl : values (str "content-length") hs = []
  · rw [if_neg (by rw [hp.nLength, hcl]; simp)]
    refine ⟨fun _ => ?_, fun hn => absurd rfl hn⟩
    rw [hreq]
    exact .neither hte hcl
  have hmem : p.contentLength ∈ values (str "content-length") hs :=
    List.mem_of_getLast? (hp.length hcl)
  rw [if_pos (by rw [hp.nLength]; simpa using hcl)]
  cases hl : parseLength p.contentLength with
  | none =>
    refine ⟨nofun, fun _ => ⟨hreq, ?_⟩⟩
    rintro fr (⟨-, h1⟩ | @⟨v, n, -, -, h3, h4, h5⟩ | ⟨h1, h2, -⟩)
    · exact hcl h1
    · rw [h3 _ hmem, parseLength_eq_some.mpr ⟨h4, h5⟩] at hl
      cases hl
    · exact hcl h1
  | some n =>
    refine ⟨fun _ => ?_, fun hn => absurd rfl hn⟩
    obtain ⟨h1, h2⟩ := parseLength_eq_some.mp hl
    have := Framed.length hte hcl (fun w hw => hcond.2.2.1 w hw _ hmem) h1 h2
    rwa [← hreq'.1] at this

theorem frame_spec {p : PickedHeaders} {req : Request} (hp : Picks hs p) (hr : p.refuse = 0)
    (hreq : req.framing = ⟨false, 0⟩) :
    ((frame req p).1 = 0 → Framed hs (frame req p).2.framing) ∧
      ((frame req p).1 ≠ 0 → (frame req p).2.framing = ⟨false, 0⟩ ∧ ∀ fr, ¬ Framed hs fr) := by
  by_cases hte : values (str "transfer-encoding") hs = []
  · exact frame_length hp hr hreq hte
  · exact frame_chunked hp hr hreq hte

/-- The list values the rule allows are the ones nothing in the pass refuses. -/
theorem not_framed_of_refused {p : PickedHeaders} (hp : Picks hs p) (hr : p.refuse ≠ 0) :
    ¬ Accepts minor hs q := by
  intro ha
  refine hr (hp.refuse.mpr ⟨ha.unfolded, ha.expects, ?_, ?_⟩)
  · obtain ⟨fr, hf⟩ := ha.framed
    cases hf with
    | neither _ h2 => simp [h2]
    | length _ _ h3 => exact fun v hv w hw => (h3 v hv).trans (h3 w hw).symm
    | chunked h1 => simp [h1]
  · obtain ⟨fr, hf⟩ := ha.framed
    cases hf with
    | neither h1 => simp [h1]
    | length h1 => simp [h1]
    | chunked _ h2 h3 =>
      intro v hv hn
      obtain rfl : v = _ := by simpa [h2] using hv
      simp [hn] at h3

theorem fillRequest_spec (req : Request) (arena : Mem Byte) (arenaCap : Nat) :
    ((fillRequest req arena arenaCap).1 = 0 ↔
      Accepts req.minorVersion req.headers (QueryWhole req.target arena arenaCap)) ∧
    ((fillRequest req arena arenaCap).1 = 0 →
      Framed req.headers (fillRequest req arena arenaCap).2.1.framing) ∧
    ((fillRequest req arena arenaCap).1 ≠ 0 →
      (fillRequest req arena arenaCap).2.1.framing = ⟨false, 0⟩) := by
  have hp := pickHeaders_picks req.headers
  have hq : QueryWhole req.target arena arenaCap ↔
      (if ((originTarget req.target).dropWhile (· != 63)).drop 1 ≠ [] then
        kvParse (((originTarget req.target).dropWhile (· != 63)).drop 1) maxParams arena arenaCap
      else ⟨arena, 0, [], false⟩).lost = false := by
    unfold QueryWhole
    split
    · rfl
    · rename_i hn
      rw [not_not.mp hn]
      simp [kvParse, kvLoop]
  unfold fillRequest
  dsimp only
  generalize (if ((originTarget req.target).dropWhile (· != 63)).drop 1 ≠ [] then
        kvParse (((originTarget req.target).dropWhile (· != 63)).drop 1) maxParams arena arenaCap
      else (⟨arena, 0, [], false⟩ : KvState)) = kv at hq
  generalize (pickHeaders req.headers).1 = p at hp
  split
  · rename_i hr
    exact ⟨⟨fun h0 => absurd h0 hr, fun ha => absurd ha (not_framed_of_refused hp hr)⟩,
      fun h0 => absurd h0 hr, fun _ => rfl⟩
  rename_i hr
  rw [not_not] at hr
  split
  · rename_i hlost
    have hne : (if kv.pairs.length = maxParams then 400 else 414) ≠ 0 := by split <;> simp
    refine ⟨⟨fun h0 => absurd h0 hne, fun ha => ?_⟩, fun h0 => absurd h0 hne, fun _ => rfl⟩
    simp [hq.mp ha.query] at hlost
  rename_i hlost
  rw [hp.nHost]
  by_cases hh : if req.minorVersion ≥ 1 then (values (str "host") req.headers).length ≠ 1
    else (values (str "host") req.headers).length > 1
  · rw [if_pos hh]
    refine ⟨⟨nofun, fun ha => ?_⟩, nofun, fun _ => rfl⟩
    have := ha.hosts
    grind
  rw [if_neg hh]
  have hcond := hp.refuse.mp hr
  obtain ⟨h1, h2⟩ := @frame_spec _ p { req with
      path := (originTarget req.target).takeWhile (· != 63)
      query := ((originTarget req.target).dropWhile (· != 63)).drop 1
      params := kv.pairs
      headers := (pickHeaders req.headers).2
      body := ⟨.null, 0⟩
      chunked := false
      contentLength := 0
      keepAlive := keepAliveFrom req.minorVersion p
      expectContinue := p.expectContinue } hp hr rfl
  refine ⟨⟨fun h0 => ?_, fun ha => ?_⟩, h1, fun hn => (h2 hn).1⟩
  · exact ⟨hcond.1, hcond.2.1, hq.mpr (by simpa using hlost), by grind, _, h1 h0⟩
  · by_contra hn
    obtain ⟨fr, hf⟩ := ha.framed
    exact (h2 hn).2 fr hf

/-- A request is accepted by `fill_request` just when the rule accepts it, with
the framing the rule gives it; the order of the headers does not matter. -/
theorem fillRequest_accepts (req : Request) (arena : Mem Byte) (arenaCap : Nat) :
    let r := fillRequest req arena arenaCap
    (r.1 = 0 ↔ Accepts req.minorVersion req.headers (QueryWhole req.target arena arenaCap)) ∧
    (r.1 = 0 → Framed req.headers ⟨r.2.1.chunked, r.2.1.contentLength⟩) ∧
    ∀ headers, headers.Perm req.headers →
      let r' := fillRequest { req with headers := headers } arena arenaCap
      (r'.1 = 0 ↔ r.1 = 0) ∧ r'.2.1.chunked = r.2.1.chunked ∧
        r'.2.1.contentLength = r.2.1.contentLength := by
  obtain ⟨h1, h2, h3⟩ := fillRequest_spec req arena arenaCap
  refine ⟨h1, h2, fun headers hperm => ?_⟩
  obtain ⟨h1', h2', h3'⟩ := fillRequest_spec { req with headers := headers } arena arenaCap
  have hiff : (fillRequest { req with headers := headers } arena arenaCap).1 = 0 ↔
      (fillRequest req arena arenaCap).1 = 0 := by
    rw [h1, h1']
    exact ⟨fun ha => ha.perm hperm, fun ha => ha.perm hperm.symm⟩
  have hfr : (fillRequest { req with headers := headers } arena arenaCap).2.1.framing =
      (fillRequest req arena arenaCap).2.1.framing := by
    by_cases h0 : (fillRequest req arena arenaCap).1 = 0
    · exact ((h2' (hiff.mpr h0)).perm hperm).unique (h2 h0)
    · rw [h3 h0, h3' fun h0' => h0 (hiff.mp h0')]
  exact ⟨hiff, (Framing.mk.inj hfr).1, (Framing.mk.inj hfr).2⟩

end Ioxd.Http
