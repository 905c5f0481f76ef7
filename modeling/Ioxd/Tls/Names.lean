import Ioxd.Tls.Reload
import Ioxd.Http.TextLaws
import Ioxd.Lib.Parts

/-!
# Which host answers

`on_client_hello` of `lib/tls/certs.c`, with the `lookup` in the table that the
handshake is bound to. A handshake starts on the table's fallback; the
server_name extension of the ClientHello may move it to the context of a host.
OpenSSL hands the extension over as bytes, or has none.

A host is named by its directory: `_.example.com` stands for every name that is
one label in front of `example.com`.
-/

namespace Ioxd.Tls.Certs

open Ioxd.Pipe (Byte)

variable {Ctx : Type}

def dot : Byte := 46

def underscore : Byte := 95

def fold (c : Byte) : Byte := if 65 ≤ c ∧ c ≤ 90 then c ||| 0x20 else c

def hostEq (a b : List Byte) : Bool :=
  b.length == a.length && (a.zip b).all fun p => fold p.1 == fold p.2

/-- A name without the dot that ends it, unless that is all there is. -/
def bare (name : List Byte) : List Byte :=
  if 1 < name.length ∧ name.getLast? = some dot then name.dropLast else name

def lookup (t : Table Ctx) (name : List Byte) : Option Ctx :=
  let name := bare name
  match t.hosts.find? (hostEq name ·.name) with
  | some h => some h.ctx
  | none =>
    if dot ∈ name then
      let rest := name.dropWhile (· != dot)
      if rest.length + 1 < 256 then
        (t.hosts.find? (hostEq (underscore :: rest) ·.name)).map (·.ctx)
      else none
    else none

def u16 (hi lo : Byte) : Nat := hi.toNat <<< 8 ||| lo.toNat

/-- `on_client_hello`: the context that it moves the handshake to. -/
def onClientHello (t : Table Ctx) (ext : Option (List Byte)) : Option Ctx :=
  match ext with
  | some (e0 :: e1 :: e2 :: e3 :: e4 :: name) =>
    let listLen := u16 e0 e1
    let nameLen := u16 e3 e4
    if e2 ≠ 0 ∨ nameLen + 3 ≠ listLen ∨ listLen + 2 ≠ name.length + 5 then none
    else lookup t (name.take nameLen)
  | _ => none

/-- The context a handshake answers with: `ioxd__certs_fallback`, or what
`on_client_hello` sets. -/
def answering (t : Table Ctx) (ext : Option (List Byte)) : Ctx :=
  (onClientHello t ext).getD t.fallback

-- ---------------------------------------------------------------------------
-- Names as labels
-- ---------------------------------------------------------------------------

/-- The labels of a name, in lower case. -/
def labels (name : List Byte) : List (List Byte) := (name.map fold).splitOn dot

/-- A host is this name. -/
def Host.named (h : Host Ctx) (ls : List (List Byte)) : Bool := labels h.name == ls

/-- A host stands for every name with these labels behind the first; a directory
has at most 255 bytes to its name. -/
def Host.covers (h : Host Ctx) (ls : List (List Byte)) : Bool :=
  labels h.name == [underscore] :: ls.tail && ls.tail != [] && h.name.length < 256

def hostNameExt (name : List Byte) : List Byte :=
  let n := name.length
  [.ofNat ((n + 3) / 256), .ofNat (n + 3), 0, .ofNat (n / 256), .ofNat n] ++ name

/-- The context that answers: the first host of the name itself, else the first
that stands for it, else the fallback; and the fallback alone when the client
sends no extension, or one that is not exactly a list of one host name. -/
structure Answers (t : Table Ctx) (ext : Option (List Byte)) (ctx : Ctx) : Prop where
  named : ∀ name, name.length + 3 < 2 ^ 16 → ext = some (hostNameExt name) →
    ctx = (((t.hosts.find? (·.named (labels (bare name)))).or
      (t.hosts.find? (·.covers (labels (bare name))))).map (·.ctx)).getD t.fallback
  unnamed : (∀ name, name.length + 3 < 2 ^ 16 → ext ≠ some (hostNameExt name)) →
    ctx = t.fallback

variable {t : Table Ctx} {name a b : List Byte} {h : Host Ctx}

set_option maxRecDepth 4096 in
theorem fold_dot (c : Byte) : fold c = dot ↔ c = dot :=
  Http.forall_byte (P := fun c => fold c = dot ↔ c = dot) (by decide +kernel) c

theorem hostEq_iff : hostEq a b = true ↔ a.map fold = b.map fold := by
  unfold hostEq
  rw [Bool.and_eq_true, beq_iff_eq]
  induction a generalizing b with
  | nil =>
    cases b with
    | nil => simp
    | cons y b => simp
  | cons x a ih =>
    cases b with
    | nil => simp
    | cons y b =>
      have hb := @ih b
      simp only [List.length_cons, Nat.add_right_cancel_iff, List.zip_cons_cons, List.all_cons,
        Bool.and_eq_true, beq_iff_eq, List.map_cons, List.cons.injEq]
      rw [← hb]
      tauto

theorem labels_inj : labels a = labels b ↔ a.map fold = b.map fold := by
  refine ⟨fun he => ?_, fun he => congrArg (List.splitOn dot) he⟩
  have hback (name : List Byte) : [dot].intercalate (labels name) = name.map fold :=
    List.intercalate_splitOn dot
  rw [← hback a, ← hback b, he]

theorem hostEq_named : hostEq a h.name = h.named (labels a) := by
  rw [Bool.eq_iff_iff, hostEq_iff, Host.named, beq_iff_eq, labels_inj, eq_comm]

theorem labels_cons (hf : dot ∉ a) (b : List Byte) :
    labels (a ++ dot :: b) = a.map fold :: labels b := by
  have hm : dot ∉ a.map fold := fun hx => by
    obtain ⟨c, hc, he⟩ := List.mem_map.mp hx
    exact hf ((fold_dot c).mp he ▸ hc)
  have hd : fold dot = dot := (fold_dot dot).mpr rfl
  rw [labels, List.map_append, List.map_cons, hd]
  exact List.splitOn_append_cons_self_of_not_mem hm _

theorem labels_single (hf : dot ∉ a) : labels a = [a.map fold] := by
  refine List.splitOn_eq_singleton fun hx => ?_
  obtain ⟨c, hc, he⟩ := List.mem_map.mp hx
  exact hf ((fold_dot c).mp he ▸ hc)

theorem split_dot (hd : dot ∈ name) : ∃ first rest, dot ∉ first ∧ name = first ++ dot :: rest ∧
    name.dropWhile (· != dot) = dot :: rest := by
  have hsplit := @List.takeWhile_append_dropWhile _ (· != dot) name
  have hplain := Parts.plain dot name
  cases hw : name.dropWhile (· != dot) with
  | nil =>
    rw [hw, List.append_nil] at hsplit
    exact absurd (hsplit.symm ▸ hd) hplain
  | cons c rest =>
    obtain rfl : c = dot := by
      have := List.head?_dropWhile_not (· != dot) name
      rw [hw] at this
      simpa using this
    exact ⟨_, rest, hplain, by rw [← hw, hsplit], rfl⟩

/-- The name that is looked for behind the host's own is that of the wildcard. -/
theorem covers_eq (hd : dot ∈ name) : h.covers (labels name) =
    (decide ((name.dropWhile (· != dot)).length + 1 < 256) &&
      hostEq (underscore :: name.dropWhile (· != dot)) h.name) := by
  obtain ⟨first, rest, hf, hn, hw⟩ := split_dot hd
  have hl : labels name = first.map fold :: labels rest := by
    rw [hn]
    exact labels_cons hf rest
  have hu : labels (underscore :: dot :: rest) = [underscore] :: labels rest :=
    labels_cons (a := [underscore]) (by decide) rest
  rw [hw, Host.covers, hl, List.tail_cons, Bool.eq_iff_iff]
  simp only [Bool.and_eq_true, beq_iff_eq, bne_iff_ne, decide_eq_true_eq, hostEq_iff]
  rw [← hu, labels_inj, eq_comm (a := h.name.map fold)]
  constructor
  · rintro ⟨⟨h1, -⟩, h2⟩
    have hlen := congrArg List.length h1
    simp only [List.length_map, List.length_cons] at hlen
    exact ⟨by simp only [List.length_cons]; omega, h1⟩
  · rintro ⟨h1, h2⟩
    have hlen := congrArg List.length h2
    simp only [List.length_map, List.length_cons] at hlen h1
    exact ⟨⟨h2, List.splitOn_ne_nil _ _⟩, by omega⟩

theorem lookup_eq (t : Table Ctx) (name : List Byte) : lookup t name =
    ((t.hosts.find? (·.named (labels (bare name)))).or
      (t.hosts.find? (·.covers (labels (bare name))))).map (·.ctx) := by
  unfold lookup
  simp only [hostEq_named]
  generalize bare name = name
  cases hx : t.hosts.find? (·.named (labels name)) with
  | some h => rfl
  | none =>
    rw [Option.none_or]
    have hnone {p : Host Ctx → Bool} (hp : ∀ h, p h = false) : t.hosts.find? p = none :=
      List.find?_eq_none.mpr fun h _ => by simp [hp h]
    by_cases hd : dot ∈ name
    · simp only [if_pos hd, covers_eq hd, hostEq_named]
      split
      · rename_i hlt
        simp only [hlt, decide_true, Bool.true_and]
      · rename_i hlt
        rw [hnone fun h => by simp [hlt]]
        rfl
    · rw [if_neg hd, hnone fun h => by simp [Host.covers, labels_single hd]]
      rfl

theorem u16_sum (hi lo : Byte) : u16 hi lo = hi.toNat * 256 + lo.toNat := by
  rw [u16, ← Nat.shiftLeft_add_eq_or_of_lt lo.toNat_lt, Nat.shiftLeft_eq]

/-- Two bytes are the number they were made from, and only these. -/
theorem u16_eq {n : Nat} (hn : n < 2 ^ 16) (hi lo : Byte) :
    u16 hi lo = n ↔ hi = .ofNat (n / 256) ∧ lo = .ofNat n := by
  have hhi := hi.toNat_lt
  have hlo := lo.toNat_lt
  rw [u16_sum, ← UInt8.toNat_inj, ← UInt8.toNat_inj, UInt8.toNat_ofNat', UInt8.toNat_ofNat']
  omega

theorem onClientHello_named (t : Table Ctx) (hn : name.length + 3 < 2 ^ 16) :
    onClientHello t (some (hostNameExt name)) = lookup t name := by
  have h1 := (u16_eq hn _ _).mpr ⟨rfl, rfl⟩
  have h2 := (u16_eq (Nat.lt_of_le_of_lt (Nat.le_add_right _ 3) hn) _ _).mpr ⟨rfl, rfl⟩
  simp only [hostNameExt, List.cons_append, List.nil_append, onClientHello, h1, h2]
  rw [if_neg (by simp), List.take_length]

theorem onClientHello_other {ext : Option (List Byte)} (t : Table Ctx)
    (hx : ∀ name, name.length + 3 < 2 ^ 16 → ext ≠ some (hostNameExt name)) :
    onClientHello t ext = none := by
  unfold onClientHello
  split
  · rename_i e0 e1 e2 e3 e4 name
    dsimp only
    refine if_pos ?_
    by_contra hno
    simp only [ne_eq, not_or, not_not] at hno
    obtain ⟨h1, h2, h3⟩ := hno
    have hlt : name.length + 3 < 2 ^ 16 := by
      have hhi := e0.toNat_lt
      have hlo := e1.toNat_lt
      have hsum := u16_sum e0 e1
      omega
    obtain ⟨rfl, rfl⟩ := (u16_eq hlt e0 e1).mp (by omega)
    obtain ⟨rfl, rfl⟩ := (u16_eq (by omega) e3 e4).mp (by omega : u16 e3 e4 = name.length)
    exact hx name hlt (by rw [h1]; rfl)
  · rfl

/-- For every table and whatever the client sends. -/
theorem sni_answers (t : Table Ctx) (ext : Option (List Byte)) :
    Answers t ext (answering t ext) where
  named name hn he := by rw [answering, he, onClientHello_named t hn, lookup_eq]
  unnamed hx := by rw [answering, onClientHello_other t hx, Option.getD_none]

def threeHosts : Table Nat :=
  ⟨[⟨Http.str "default", 0⟩, ⟨Http.str "_.example.com", 1⟩, ⟨Http.str "a.example.com", 2⟩], 0⟩

/-- The wildcard is for one label, and gives way to a host of the name. -/
example : ["b.Example.COM.", "A.example.com", "b.a.example.com", "example.com"].map
    (fun name => answering threeHosts (some (hostNameExt (Http.str name)))) = [1, 2, 0, 0] := by
  decide +kernel

end Ioxd.Tls.Certs
