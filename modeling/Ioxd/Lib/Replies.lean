import Ioxd.Lib.Message

/-!
# Messages one behind another

A message whose head says where its body ends can be told from what follows it:
the bytes of a sequence of such messages are the bytes of no other one. That
holds of a chunked body whatever its spelling: its lines end at their first
CRLF, and a chunk's data where its size says.
-/

namespace Chunked

open Numeral

-- ---------------------------------------------------------------------------
-- Lines
-- ---------------------------------------------------------------------------

/-- Two texts of one kind of characters that go on with another kind. -/
theorem run_inj {p : UInt8 → Bool} {a b s t : List UInt8} (ha : ∀ c ∈ a, p c) (hb : ∀ c ∈ b, p c)
    (hs : ∀ c ∈ s.head?, p c = false) (ht : ∀ c ∈ t.head?, p c = false) (h : a ++ s = b ++ t) :
    a = b ∧ s = t := by
  have htake {x y : List UInt8} (hx : ∀ c ∈ x, p c) (hy : ∀ c ∈ y.head?, p c = false) :
      (x ++ y).takeWhile p = x := by
    rw [List.takeWhile_append_of_pos hx]
    cases y with
    | nil => rw [List.takeWhile_nil, List.append_nil]
    | cons c y =>
      rw [List.takeWhile_cons_of_neg (Bool.eq_false_iff.mp (hy c rfl)), List.append_nil]
  obtain rfl : a = b := by rw [← htake ha hs, ← htake hb ht, h]
  exact ⟨rfl, List.append_cancel_left h⟩

theorem crlf_ne_line {c : UInt8} {a s t : List UInt8} (ha : ¬ crlf <:+: c :: a) :
    crlf ++ s ≠ c :: a ++ crlf ++ t := by
  intro h
  simp only [List.cons_append, List.nil_append, List.cons.injEq] at h
  obtain ⟨rfl, h⟩ := h
  cases a with
  | nil => exact absurd (List.cons.inj h).1 (by decide)
  | cons d a =>
    obtain ⟨rfl, -⟩ := List.cons.inj h
    exact ha (List.prefix_append crlf a).isInfix

theorem line_inj {a b s t : List UInt8} (ha : ¬ crlf <:+: a) (hb : ¬ crlf <:+: b)
    (h : a ++ crlf ++ s = b ++ crlf ++ t) : a = b ∧ s = t := by
  induction a generalizing b with
  | nil =>
    cases b with
    | nil => exact ⟨rfl, List.append_cancel_left h⟩
    | cons c b => exact absurd h (crlf_ne_line hb)
  | cons c a ih =>
    cases b with
    | nil => exact absurd h.symm (crlf_ne_line ha)
    | cons d b =>
      simp only [List.cons_append, List.cons.injEq] at h
      obtain ⟨rfl, h⟩ := h
      obtain ⟨rfl, rfl⟩ := ih (fun hi => ha (hi.trans (List.suffix_cons c a).isInfix))
        (fun hi => hb (hi.trans (List.suffix_cons c b).isInfix)) h
      exact ⟨rfl, rfl⟩

/-- Where an extension is, the line goes on with a blank or a semicolon. -/
theorem extension_head {bs t : List UInt8} (hb : ∀ c ∈ bs, c = 32 ∨ c = 9) (s : List UInt8) :
    bs ++ 59 :: t ≠ crlf ++ s := by
  intro h
  cases bs with
  | nil => exact absurd (List.cons.inj h).1 (by decide)
  | cons c bs =>
    obtain ⟨rfl, -⟩ := List.cons.inj h
    exact absurd (hb 13 (List.mem_cons_self ..)) (by decide)

theorem extension_inj {e e' s s' : List UInt8} (h : Extension e) (h' : Extension e')
    (he : e ++ crlf ++ s = e' ++ crlf ++ s') : s = s' := by
  rcases h with rfl | ⟨bs, t, rfl, hb, -, ht⟩ <;> rcases h' with rfl | ⟨bs', t', rfl, hb', -, ht'⟩
  · exact List.append_cancel_left he
  · exact absurd (by simpa using he.symm) (extension_head hb' s (t := t' ++ crlf ++ s'))
  · exact absurd (by simpa using he) (extension_head hb s' (t := t ++ crlf ++ s))
  · have hblank {x : List UInt8} (hx : ∀ c ∈ x, c = 32 ∨ c = 9) :
        ∀ c ∈ x, (c == 32 || c == 9) = true := fun c hc => by simpa using hx c hc
    simp only [List.append_assoc, List.cons_append] at he
    obtain ⟨rfl, he⟩ := run_inj (hblank hb) (hblank hb') (by simp) (by simp) he
    exact (line_inj ht ht' (by simpa using he)).2

theorem sizeLine_inj {size size' e e' s s' : List UInt8} {n n' : Nat} (hn : Hex size n)
    (hn' : Hex size' n') (h : Extension e) (h' : Extension e')
    (heq : size ++ e ++ crlf ++ s = size' ++ e' ++ crlf ++ s') : n = n' ∧ s = s' := by
  have hend {e s : List UInt8} (he : Extension e) :
      ∀ c ∈ (e ++ crlf ++ s).head?, (hex c).isSome = false := by
    intro c hc
    rcases he with rfl | ⟨bs, t, rfl, hb, -⟩
    · obtain rfl : 13 = c := by simpa using hc
      decide
    · cases bs with
      | nil =>
        obtain rfl : 59 = c := by simpa using hc
        decide
      | cons d bs =>
        obtain rfl : d = c := by simpa using hc
        rcases hb d (List.mem_cons_self ..) with rfl | rfl <;> decide
  simp only [List.append_assoc size, List.append_assoc size'] at heq
  obtain ⟨rfl, hrest⟩ := run_inj hn.2.1 hn'.2.1 (hend h) (hend h') heq
  exact ⟨hn.unique hn', extension_inj h h' hrest⟩

-- ---------------------------------------------------------------------------
-- Bodies
-- ---------------------------------------------------------------------------

theorem encodeTrailers_cons (t : List UInt8) (ts : List (List UInt8)) (s : List UInt8) :
    encodeTrailers (t :: ts) ++ s = t ++ crlf ++ (encodeTrailers ts ++ s) := by
  simp [encodeTrailers]

theorem trailers_inj {ts ts' : List (List UInt8)} {s s' : List UInt8}
    (h : ∀ t ∈ ts, t ≠ [] ∧ ¬ crlf <:+: t) (h' : ∀ t ∈ ts', t ≠ [] ∧ ¬ crlf <:+: t)
    (he : encodeTrailers ts ++ s = encodeTrailers ts' ++ s') : s = s' := by
  have hno : ¬ crlf <:+: ([] : List UInt8) := by simp
  have hend (r : List UInt8) : encodeTrailers [] ++ r = [] ++ crlf ++ r := rfl
  induction ts generalizing ts' with
  | nil =>
    cases ts' with
    | nil => exact List.append_cancel_left he
    | cons t ts' =>
      obtain ⟨hne, ht⟩ := h' t (List.mem_cons_self ..)
      rw [encodeTrailers_cons, hend] at he
      exact absurd (line_inj hno ht he).1.symm hne
  | cons t ts ih =>
    obtain ⟨hne, ht⟩ := h t (List.mem_cons_self ..)
    cases ts' with
    | nil =>
      rw [encodeTrailers_cons, hend] at he
      exact absurd (line_inj ht hno he).1 hne
    | cons t' ts' =>
      obtain ⟨-, ht'⟩ := h' t' (List.mem_cons_self ..)
      rw [encodeTrailers_cons, encodeTrailers_cons] at he
      exact ih (fun x hx => h x (List.mem_cons_of_mem _ hx))
        (fun x hx => h' x (List.mem_cons_of_mem _ hx)) (line_inj ht ht' he).2

theorem Body.encode_inj {b b' : Body} {s s' : List UInt8} (he : b.encode ++ s = b'.encode ++ s') :
    b.data = b'.data ∧ s = s' := by
  induction hcs : b.chunks generalizing b b' with
  | nil =>
    rw [Body.encode_nil hcs] at he
    cases hcs' : b'.chunks with
    | nil =>
      rw [Body.encode_nil hcs'] at he
      simp only [List.append_assoc _ (encodeTrailers _)] at he
      obtain ⟨-, he⟩ := sizeLine_inj b.zero b'.zero b.extended b'.extended he
      exact ⟨by rw [Body.data, Body.data, hcs, hcs'], trailers_inj b.lines b'.lines he⟩
    | cons c cs =>
      rw [Body.encode_cons hcs'] at he
      simp only [List.append_assoc _ _ s, List.append_assoc _ _ s'] at he
      have hz := (sizeLine_inj b.zero c.sized b.extended c.extended he).1
      exact absurd (List.length_eq_zero_iff.mp hz.symm) c.nonempty
  | cons c cs ih =>
    rw [Body.encode_cons hcs] at he
    cases hcs' : b'.chunks with
    | nil =>
      rw [Body.encode_nil hcs'] at he
      simp only [List.append_assoc _ _ s, List.append_assoc _ _ s'] at he
      have hz := (sizeLine_inj c.sized b'.zero c.extended b'.extended he).1
      exact absurd (List.length_eq_zero_iff.mp hz) c.nonempty
    | cons c' cs' =>
      rw [Body.encode_cons hcs'] at he
      simp only [List.append_assoc _ _ s, List.append_assoc _ _ s'] at he
      obtain ⟨hlen, he⟩ := sizeLine_inj c.sized c'.sized c.extended c'.extended he
      simp only [List.append_assoc] at he
      obtain ⟨hdata, he⟩ := List.append_inj he hlen
      have htail : b.tail.chunks = cs := by rw [Body.tail, hcs, List.tail_cons]
      obtain ⟨ht, hs⟩ := ih (List.append_cancel_left he) htail
      have hd {b : Body} {c : Chunk} {cs : List Chunk} (h : b.chunks = c :: cs) :
          b.data = c.data ++ b.tail.data := by
        rw [Body.data, Body.data, Body.tail, h, List.tail_cons, List.flatMap_cons]
      exact ⟨by rw [hd hcs, hd hcs', hdata, ht], hs⟩

end Chunked

namespace Message

open Numeral

-- ---------------------------------------------------------------------------
-- Messages
-- ---------------------------------------------------------------------------

theorem Declares.unique {h : Head} {f f' : Framing} (hf : Declares h f) (hf' : Declares h f') :
    f = f' := by
  cases hf with
  | length ht hl hn =>
    cases hf' with
    | length _ hl' hn' =>
      rw [hl] at hl'
      obtain rfl := List.singleton_inj.mp hl'
      rw [hn.unique hn']
    | chunked ht' => simp [ht] at ht'
    | untilClose _ hl' => simp [hl] at hl'
  | chunked ht hl =>
    cases hf' with
    | length ht' => simp [ht] at ht'
    | chunked => rfl
    | untilClose ht' => simp [ht] at ht'
  | untilClose ht hl =>
    cases hf' with
    | length _ hl' => simp [hl] at hl'
    | chunked ht' => simp [ht] at ht'
    | untilClose => rfl

theorem Carries.inj {f : Framing} {b b' d d' s s' : List UInt8} (hf : f ≠ .untilClose)
    (h : Carries f b d) (h' : Carries f b' d') (he : b ++ s = b' ++ s') : d = d' ∧ s = s' := by
  cases h with
  | length =>
    generalize hn : b.length = n at h'
    cases h' with
    | length => exact List.append_inj he hn
  | chunked body =>
    cases h' with
    | chunked body' => exact Chunked.Body.encode_inj he
  | untilClose => exact absurd rfl hf

/-- A message that says where it ends. -/
structure Reply where
  head : Head
  framing : Framing
  body : List UInt8
  data : List UInt8
  declared : Declares head framing
  carries : Carries framing body data
  delimited : framing ≠ .untilClose

def Reply.encode (r : Reply) : List UInt8 := r.head.encode ++ r.body

theorem Reply.encode_inj {r r' : Reply} {s s' : List UInt8} (he : r.encode ++ s = r'.encode ++ s') :
    r.head = r'.head ∧ r.data = r'.data ∧ s = s' := by
  simp only [Reply.encode, List.append_assoc] at he
  obtain ⟨hh, hb⟩ := Head.encode_inj he
  have hf : r'.framing = r.framing := (hh ▸ r'.declared).unique r.declared
  have hc := r'.carries
  rw [hf] at hc
  exact ⟨hh, r.carries.inj r.delimited hc hb⟩

/-- A head that declares a length or chunks has a field that says so. -/
theorem Reply.fields_ne_nil (r : Reply) : r.head.fields ≠ [] := by
  intro h
  have hv (name : List UInt8) : r.head.values name = [] := by rw [Head.values, h]; rfl
  have hd := r.declared
  have hne := r.delimited
  generalize r.framing = f at hd hne
  cases hd with
  | length _ hl => simp [hv] at hl
  | chunked ht => simp [hv] at ht
  | untilClose => exact hne rfl

-- ---------------------------------------------------------------------------
-- Sequences of them
-- ---------------------------------------------------------------------------

/-- A message with the interim heads in front of it, which have no fields. -/
structure Answer where
  interim : List Head
  reply : Reply
  bare : ∀ h ∈ interim, h.fields = []

def Answer.encode (a : Answer) : List UInt8 := a.interim.flatMap Head.encode ++ a.reply.encode

theorem interim_inj {is is' : List Head} {r r' : Reply} {s s' : List UInt8}
    (h : ∀ i ∈ is, i.fields = []) (h' : ∀ i ∈ is', i.fields = [])
    (he : is.flatMap Head.encode ++ r.encode ++ s = is'.flatMap Head.encode ++ r'.encode ++ s') :
    r.data = r'.data ∧ s = s' := by
  -- a bare head is not the head of a message
  have hne {i : Head} {r : Reply} {t t' : List UInt8} (hi : i.fields = []) :
      i.encode ++ t ≠ r.encode ++ t' := fun e => by
    rw [Reply.encode, List.append_assoc] at e
    exact r.fields_ne_nil ((Head.encode_inj e).1 ▸ hi)
  induction is generalizing is' with
  | nil =>
    cases is' with
    | nil => exact (Reply.encode_inj he).2
    | cons i is' =>
      simp only [List.flatMap_nil, List.flatMap_cons, List.append_assoc, List.nil_append] at he
      exact absurd he.symm (hne (h' i (List.mem_cons_self ..)))
  | cons i is ih =>
    cases is' with
    | nil =>
      simp only [List.flatMap_nil, List.flatMap_cons, List.append_assoc, List.nil_append] at he
      exact absurd he (hne (h i (List.mem_cons_self ..)))
    | cons i' is' =>
      simp only [List.flatMap_cons, List.append_assoc] at he
      have ht := (Head.encode_inj he).2
      exact ih (fun x hx => h x (List.mem_cons_of_mem _ hx))
        (fun x hx => h' x (List.mem_cons_of_mem _ hx)) (by simpa using ht)

theorem Answer.encode_inj {a a' : Answer} {s s' : List UInt8}
    (he : a.encode ++ s = a'.encode ++ s') :
    a.reply.data = a'.reply.data ∧ s = s' := interim_inj a.bare a'.bare he

theorem Answer.encode_ne_nil (a : Answer) : a.encode ≠ [] := by
  intro h
  have hl := congrArg List.length h
  simp [Answer.encode, Reply.encode, Head.encode, encodeLines] at hl

theorem answers_inj {as as' : List Answer}
    (he : as.flatMap Answer.encode = as'.flatMap Answer.encode) :
    as.map (·.reply.data) = as'.map (·.reply.data) := by
  induction as generalizing as' with
  | nil =>
    cases as' with
    | nil => rfl
    | cons a as' => exact absurd (List.append_eq_nil_iff.mp he.symm).1 a.encode_ne_nil
  | cons a as ih =>
    cases as' with
    | nil => exact absurd (List.append_eq_nil_iff.mp he).1 a.encode_ne_nil
    | cons a' as' =>
      rw [List.flatMap_cons, List.flatMap_cons] at he
      obtain ⟨hd, hs⟩ := Answer.encode_inj he
      rw [List.map_cons, List.map_cons, hd, ih hs]

end Message
