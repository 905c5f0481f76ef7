import Ioxd.Files.Serve
import Ioxd.Http.TextLaws
import Ioxd.Lib.Parts

/-!
# Names that stay inside

`resolve` of `lib/http/static.c`, `open_file` with the buffer it writes to, and
what calls them. A write behind the end of a buffer has no result. A name that
is resolved is made of segments that lead nowhere but down, with the index
behind them where a directory was asked for.
-/

namespace Ioxd.Files

open Parts
open Ioxd.Pipe (Byte)
open Ioxd.Http (str hexval)

/-- A C string. -/
structure CString where
  bytes : List Byte
  noNul : 0 ∉ bytes

/-- What `resolve` and `open_file` read of a store. -/
structure Store where
  index : CString
  hidden : Bool

/-- Bytes behind those that are in a buffer of `NAME_CAP`. -/
def put (out bs : List Byte) : Option (List Byte) :=
  if out.length + bs.length ≤ nameCap then some (out ++ bs) else none

/-- `if (n) out[n++] = '/'`. -/
def separate (out : List Byte) : Option (List Byte) :=
  if out = [] then some out else put out (str "/")

def escapeAt : List Byte → Option (Byte × List Byte)
  | 37 :: h :: l :: rest =>
    match hexval h, hexval l with
    | some hi, some lo => some (UInt8.ofNat (hi * 16 + lo), rest)
    | _, _ => none
  | _ => none

/-- The byte that the loop over a path takes next, with what is behind it. -/
def nextByte (decode : Bool) : List Byte → Option (Byte × List Byte)
  | [] => none
  | c :: cs => some (if decode then (escapeAt (c :: cs)).getD (c, cs) else (c, cs))

theorem length_escapeAt {path rest : List Byte} {ch : Byte} (h : escapeAt path = some (ch, rest)) :
    rest.length < path.length := by
  unfold escapeAt at h
  split at h
  · split at h
    · cases h
      simp only [List.length_cons]
      omega
    · exact absurd h (by simp)
  · exact absurd h (by simp)

theorem length_nextByte {decode : Bool} {path rest : List Byte} {ch : Byte}
    (h : nextByte decode path = some (ch, rest)) : rest.length < path.length := by
  cases path with
  | nil => exact absurd h (by simp [nextByte])
  | cons c cs =>
    have hcs : cs.length < (c :: cs).length := Nat.lt_succ_self _
    rw [nextByte, Option.some.injEq] at h
    split at h
    · cases he : escapeAt (c :: cs) with
      | none =>
        rw [he] at h
        cases h
        exact hcs
      | some p =>
        rw [he] at h
        cases h
        exact length_escapeAt he
    · cases h
      exact hcs

/-- The loop that fills `raw`: no value where it comes to a NUL. -/
def rawLoop (decode : Bool) (path raw : List Byte) : Option (Option (List Byte)) :=
  match h : nextByte decode path with
  | none => some (some raw)
  | some (ch, rest) =>
    have := length_nextByte h
    if ch = 0 then some none
    else do
      let raw ← put raw [ch]
      rawLoop decode rest raw
termination_by path.length

/-- The loop that fills `out`: no value where it comes to a segment that is not
allowed. -/
def segmentLoop (st : Store) (rest out : List Byte) : Option (Option (List Byte)) :=
  if rest = [] then some (some out)
  else
    let seg := rest.takeWhile (· != 47)
    let tail := rest.drop (seg.length + 1)
    if seg = [] then segmentLoop st tail out
    else if seg.head? = some 46 ∧ (st.hidden = false ∨ seg = str "." ∨ seg = str "..") then
      some none
    else do
      let out ← separate out
      let out ← put out seg
      segmentLoop st tail out
termination_by rest.length
decreasing_by
  all_goals
    have := List.length_pos_iff.mpr ‹¬ rest = []›
    simp only [List.length_drop]
    omega

/-- `dir` of `resolve`. -/
def asksDir (raw : List Byte) : Bool := raw.isEmpty || raw.getLast? == some 47

/-- The index behind a name, as `resolve` puts it there. -/
def withIndex (st : Store) (out : List Byte) : Option (Option (List Byte)) :=
  if st.index.bytes = [] ∨ out.length + 1 + st.index.bytes.length ≥ nameCap then some none
  else do
    let out ← separate out
    let out ← put out st.index.bytes
    return some out

def addIndex (st : Store) (raw out : List Byte) : Option (Option (List Byte)) :=
  if asksDir raw then withIndex st out else some (some out)

/-- `resolve`: the outer `none` is a write outside of a buffer, the inner one a
name that is refused. -/
def resolve (st : Store) (path : List Byte) (decode : Bool) : Option (Option (List Byte)) :=
  if path.length ≥ nameCap then some none
  else do
    match ← rawLoop decode path [] with
    | none => return none
    | some raw =>
      match ← segmentLoop st raw [] with
      | none => return none
      | some out =>
        match ← addIndex st raw out with
        | none => return none
        | some out =>
          let _ ← put out [0]
          return if out.length > 0 then some out else none

/-- `open_file` on the buffer of a name: the name it leaves there, and the
regular file it opened. -/
def openInto (st : Store) (disk : Disk) (name : List Byte) : Option (List Byte × Option Stat) :=
  match disk.openat name with
  | some (.regular stat) => some (name, some stat)
  | some .directory =>
    if st.index.bytes = [] ∨ name.length + 1 + st.index.bytes.length ≥ nameCap then
      some (name, none)
    else do
      let name ← put name (str "/")
      let _ ← put name (st.index.bytes ++ [0])
      let name := name ++ st.index.bytes
      match disk.openat name with
      | some (.regular stat) => return (name, some stat)
      | _ => return (name, none)
  | _ => some (name, none)

-- ---------------------------------------------------------------------------
-- What a name is made of
-- ---------------------------------------------------------------------------

/-- A segment that leads down. -/
structure Allowed (st : Store) (seg : List Byte) : Prop where
  some : seg ≠ []
  whole : 47 ∉ seg
  noNul : 0 ∉ seg
  noDot : seg ≠ str "."
  noDots : seg ≠ str ".."
  shown : st.hidden = false → seg.head? ≠ Option.some 46

variable {st : Store} {path raw rest out seg : List Byte} {decode : Bool} {segs : List (List Byte)}

theorem put_eq {bs : List Byte} (h : out.length + bs.length ≤ nameCap) :
    put out bs = some (out ++ bs) := if_pos h

theorem rawLoop_spec (h : raw.length + path.length < nameCap) (hr : 0 ∉ raw) :
    ∃ r, rawLoop decode path raw = some r ∧
      ∀ raw', r = some raw' → 0 ∉ raw' ∧ raw'.length < nameCap := by
  induction hn : path.length using Nat.strongRecOn generalizing path raw with
  | _ n ih =>
    unfold rawLoop
    split
    · refine ⟨_, rfl, fun raw' he => ?_⟩
      cases he
      exact ⟨hr, by omega⟩
    · rename_i ch rest hnext
      have hlt := length_nextByte hnext
      by_cases hz : ch = 0
      · exact ⟨none, if_pos hz, nofun⟩
      · rw [if_neg hz, put_eq (by rw [List.length_singleton]; omega)]
        refine ih rest.length (by omega) ?_ ?_ rfl
        · rw [List.length_append, List.length_singleton]
          omega
        · rw [List.mem_append, List.mem_singleton]
          exact fun h => h.elim hr (Ne.symm hz)

theorem rawLoop_plain (h : raw.length + path.length < nameCap) (hp : 0 ∉ path) :
    rawLoop false path raw = some (some (raw ++ path)) := by
  induction path generalizing raw with
  | nil =>
    unfold rawLoop
    simp [nextByte]
  | cons c cs ih =>
    rw [List.mem_cons, not_or] at hp
    rw [List.length_cons] at h
    unfold rawLoop
    simp only [nextByte, Bool.false_eq_true, if_false]
    rw [if_neg (Ne.symm hp.1), put_eq (by rw [List.length_singleton]; omega)]
    refine (ih ?_ hp.2).trans ?_
    · rw [List.length_append, List.length_singleton]
      omega
    · rw [List.append_assoc, List.singleton_append]

theorem allowed_of_not (hs : seg ≠ []) (hw : 47 ∉ seg) (hz : 0 ∉ seg)
    (h : ¬ (seg.head? = some 46 ∧ (st.hidden = false ∨ seg = str "." ∨ seg = str ".."))) :
    Allowed st seg where
  some := hs
  whole := hw
  noNul := hz
  noDot := fun he => h ⟨by rw [he]; decide, .inr (.inl he)⟩
  noDots := fun he => h ⟨by rw [he]; decide, .inr (.inr he)⟩
  shown := fun hh hd => h ⟨hd, .inl hh⟩

theorem Allowed.not_refused (h : Allowed st seg) :
    ¬ (seg.head? = Option.some 46 ∧ (st.hidden = false ∨ seg = str "." ∨ seg = str "..")) := by
  rintro ⟨hd, hh | hs | hs⟩
  · exact h.shown hh hd
  · exact h.noDot hs
  · exact h.noDots hs

/-- The room there is for what is left: a separator has been passed over for the
one that goes in front of the next segment. -/
structure Room (out rest : List Byte) : Prop where
  filled : out.length < nameCap
  left : rest ≠ [] → out.length + (if out = [] then 0 else 1) + rest.length < nameCap

theorem put_segment (hall : ∀ s ∈ segs, Allowed st s)
    (hroom : (join 47 segs).length + (if join 47 segs = [] then 0 else 1) + seg.length < nameCap) :
    (separate (join 47 segs) >>= (put · seg)) = some (join 47 (segs ++ [seg])) ∧
      (join 47 (segs ++ [seg])).length =
        (join 47 segs).length + (if join 47 segs = [] then 0 else 1) + seg.length := by
  rw [join_snoc, separate]
  by_cases hsegs : segs = []
  · subst hsegs
    simp only [join_nil, if_true, List.length_nil, Nat.zero_add] at hroom ⊢
    exact ⟨put_eq (by rw [List.length_nil]; omega), trivial⟩
  · have hne := @join_ne_nil _ 47 _ hsegs fun s h => (hall s h).some
    have hslash : (str "/").length = 1 := by decide
    simp only [if_neg hne, if_neg hsegs] at hroom ⊢
    rw [put_eq (by omega)]
    refine ⟨?_, by rw [List.length_append, List.length_cons]; omega⟩
    refine (put_eq (by rw [List.length_append]; omega)).trans ?_
    rw [List.append_assoc]
    rfl

theorem segmentLoop_spec (hall : ∀ s ∈ segs, Allowed st s) (hz : 0 ∉ rest)
    (hroom : Room (join 47 segs) rest) :
    ∃ r, segmentLoop st rest (join 47 segs) = some r ∧
      (∀ out, r = some out → out = join 47 (segs ++ parts 47 rest) ∧
        (∀ s ∈ parts 47 rest, Allowed st s) ∧ out.length < nameCap) ∧
      ((∀ s ∈ parts 47 rest, Allowed st s) → r ≠ none) := by
  induction hn : rest.length using Nat.strongRecOn generalizing rest segs with
  | _ n ih =>
    unfold segmentLoop
    by_cases hr : rest = []
    · subst hr
      refine ⟨_, if_pos rfl, fun out he => ?_, fun _ => Option.some_ne_none _⟩
      cases he
      exact ⟨by simp, by simp, hroom.filled⟩
    · have hrest := hroom.left hr
      have hcut := parts_cut 47 rest
      have hplain := plain 47 rest
      have hsub : ∀ c, c ∈ rest.takeWhile (· != 47) → c ∈ rest :=
        fun c hc => (List.takeWhile_prefix _).subset hc
      have hdrop : ∀ c, c ∈ rest.drop ((rest.takeWhile (· != 47)).length + 1) → c ∈ rest :=
        fun c hc => List.mem_of_mem_drop hc
      have hlen : (rest.takeWhile (· != 47)).length ≤ rest.length :=
        (List.takeWhile_prefix _).length_le
      have htail : rest.drop ((rest.takeWhile (· != 47)).length + 1) ≠ [] →
          (rest.takeWhile (· != 47)).length + 1 +
            (rest.drop ((rest.takeWhile (· != 47)).length + 1)).length = rest.length := by
        intro h
        rw [← List.length_pos_iff, List.length_drop] at h
        rw [List.length_drop]
        omega
      have hless : (rest.drop ((rest.takeWhile (· != 47)).length + 1)).length < n := by
        have := List.length_pos_iff.mpr hr
        rw [List.length_drop]
        omega
      rw [if_neg hr]
      dsimp only
      generalize rest.takeWhile (· != 47) = seg at *
      generalize rest.drop (seg.length + 1) = tail at *
      have hz' : 0 ∉ tail := fun h => hz (hdrop 0 h)
      by_cases hs : seg = []
      · rw [if_pos hs]
        rw [if_pos hs, List.nil_append] at hcut
        rw [hcut]
        refine ih _ hless hall hz' ⟨hroom.filled, fun ht => ?_⟩ rfl
        have := htail ht
        omega
      · rw [if_neg hs]
        rw [if_neg hs, List.singleton_append] at hcut
        split
        · rename_i hdot
          refine ⟨none, rfl, nofun, fun hp => ?_⟩
          exact absurd hdot (hp seg (hcut ▸ List.mem_cons_self)).not_refused
        · rename_i hdot
          have hseg : Allowed st seg := allowed_of_not hs hplain (fun h => hz (hsub 0 h)) hdot
          obtain ⟨hput, hplen⟩ := @put_segment st seg segs hall (by omega)
          have hall' : ∀ s ∈ segs ++ [seg], Allowed st s := fun s h =>
            (List.mem_append.mp h).elim (hall s) fun h => List.mem_singleton.mp h ▸ hseg
          have hne := @join_ne_nil _ 47 _ (List.append_ne_nil_of_right_ne_nil segs
            (List.cons_ne_nil seg [])) fun s h => (hall' s h).some
          obtain ⟨r, hr, hsome, hnone⟩ := ih _ hless hall' hz' ⟨by omega, fun ht => by
            have := htail ht
            rw [if_neg hne]
            omega⟩ rfl
          rw [← bind_assoc, hput]
          refine ⟨r, hr, fun out he => ?_, fun hp => hnone fun s h => hp s ?_⟩
          · obtain ⟨h1, h2, h3⟩ := hsome out he
            rw [hcut]
            refine ⟨by rw [h1, List.append_assoc, List.singleton_append], fun s h => ?_, h3⟩
            exact (List.mem_cons.mp h).elim (fun h => h ▸ hseg) (h2 s)
          · rw [hcut]
            exact List.mem_cons_of_mem _ h

-- ---------------------------------------------------------------------------
-- What is resolved
-- ---------------------------------------------------------------------------

/-- A name that `resolve` made: segments that lead down, and the index behind
them or instead of them. -/
structure Resolved (st : Store) (name : List Byte) (index : Bool) : Prop where
  segments : ∃ segs, (∀ s ∈ segs, Allowed st s) ∧
    if index then st.index.bytes ≠ [] ∧
      name = (if segs = [] then [] else join 47 segs ++ str "/") ++ st.index.bytes
    else segs ≠ [] ∧ name = join 47 segs
  noNul : 0 ∉ name
  short : name.length < nameCap

theorem join_noNul (hall : ∀ s ∈ segs, Allowed st s) : 0 ∉ join 47 segs := fun h => by
  rcases mem_join h with h | ⟨s, hs, hc⟩
  · exact absurd h (by decide)
  · exact (hall s hs).noNul hc

theorem withIndex_spec (hall : ∀ s ∈ segs, Allowed st s) :
    ∃ r, withIndex st (join 47 segs) = some r ∧
      ∀ out, r = some out → Resolved st out true := by
  unfold withIndex
  split
  · exact ⟨none, rfl, nofun⟩
  · rename_i h
    simp only [not_or, ge_iff_le, Nat.not_le] at h
    obtain ⟨hput, hlen⟩ := @put_segment st st.index.bytes segs hall (by split <;> omega)
    rw [← bind_assoc, hput]
    refine ⟨_, rfl, fun out he => ?_⟩
    cases he
    refine ⟨⟨segs, hall, h.1, ?_⟩, ?_, ?_⟩
    · rw [join_snoc]
      split
      · rfl
      · rw [List.append_assoc]
        rfl
    · intro hz
      rcases mem_join hz with hz | ⟨s, hs, hc⟩
      · exact absurd hz (by decide)
      · rcases List.mem_append.mp hs with hs | hs
        · exact (hall s hs).noNul hc
        · exact st.index.noNul (List.mem_singleton.mp hs ▸ hc)
    · rw [hlen]
      split <;> omega

theorem parts_ne_nil (h : asksDir raw = false) : parts 47 raw ≠ [] := fun hp => by
  rw [asksDir, Bool.or_eq_false_iff, beq_eq_false_iff_ne] at h
  rcases getLast?_of_parts hp with he | he
  · exact absurd h.1 (by simp [he])
  · exact h.2 he

theorem addIndex_spec (hall : ∀ s ∈ parts 47 raw, Allowed st s)
    (hlen : (join 47 (parts 47 raw)).length < nameCap) :
    ∃ r, addIndex st raw (join 47 (parts 47 raw)) = some r ∧
      ∀ out, r = some out → Resolved st out (asksDir raw) := by
  unfold addIndex
  cases h : asksDir raw with
  | true => exact withIndex_spec hall
  | false =>
    refine ⟨_, rfl, fun out he => ?_⟩
    cases he
    exact ⟨⟨_, hall, parts_ne_nil h, rfl⟩, join_noNul hall, hlen⟩

theorem Resolved.put {name : List Byte} {index : Bool} (h : Resolved st name index) :
    put name [0] = some (name ++ [0]) := put_eq (Nat.succ_le_of_lt h.short)

theorem resolve_spec (st : Store) (path : List Byte) (decode : Bool) :
    ∃ r, resolve st path decode = some r ∧ ∀ name, r = some name →
      ∃ raw, rawLoop decode path [] = some (some raw) ∧ Resolved st name (asksDir raw) := by
  unfold resolve
  split
  · exact ⟨none, rfl, nofun⟩
  · rename_i hlen
    obtain ⟨r, hr, hraw⟩ := @rawLoop_spec path [] decode (by simpa using hlen) List.not_mem_nil
    rw [hr]
    cases r with
    | none => exact ⟨none, rfl, nofun⟩
    | some raw =>
      obtain ⟨hz, hrl⟩ := hraw raw rfl
      obtain ⟨r, hr, hsome, -⟩ := @segmentLoop_spec st raw [] (by simp) hz
        ⟨Nat.zero_lt_succ _, fun _ => by simpa using hrl⟩
      rw [join_nil] at hr
      simp only [Option.bind_eq_bind, Option.bind_some, hr]
      cases r with
      | none => exact ⟨none, rfl, nofun⟩
      | some out =>
        obtain ⟨hout, hall, hol⟩ := hsome out rfl
        rw [List.nil_append] at hout
        rw [hout] at hol
        obtain ⟨r, hr, hres⟩ := @addIndex_spec st raw hall hol
        rw [hout]
        simp only [hr, Option.bind_some]
        cases r with
        | none => exact ⟨none, rfl, nofun⟩
        | some name =>
          have hn := hres name rfl
          simp only [Option.bind_some, hn.put]
          refine ⟨_, rfl, fun name' he => ⟨raw, rfl, ?_⟩⟩
          split at he
          · cases he
            exact hn
          · cases he

theorem resolve_again {name : List Byte} (h : Resolved st name false) :
    resolve st name false = some (some name) := by
  obtain ⟨segs, hall, hne, hname⟩ := h.segments
  have hparts : parts 47 name = segs := by
    rw [hname]
    exact parts_join (fun s hs => (hall s hs).some) fun s hs => (hall s hs).whole
  have hdir : asksDir name = false := by
    have hn : name ≠ [] := hname ▸ join_ne_nil hne fun s hs => (hall s hs).some
    have hl : name.getLast? ≠ some 47 :=
      hname ▸ getLast?_join (fun s hs => (hall s hs).some) fun s hs => (hall s hs).whole
    rw [asksDir, Bool.or_eq_false_iff, beq_eq_false_iff_ne]
    exact ⟨by simpa using hn, hl⟩
  obtain ⟨r, hr, hsome, hnone⟩ := @segmentLoop_spec st name [] (by simp) h.noNul
    ⟨Nat.zero_lt_succ _, fun _ => by simpa using h.short⟩
  obtain ⟨out, rfl⟩ := Option.ne_none_iff_exists'.mp (hnone (hparts ▸ hall))
  have hout : out = name := by
    rw [(hsome out rfl).1, List.nil_append, hparts, hname]
  rw [join_nil, hout] at hr
  have hpos : name.length > 0 := by
    rw [hname]
    exact List.length_pos_iff.mpr (join_ne_nil hne fun s hs => (hall s hs).some)
  have hshort := h.short
  rw [resolve, if_neg (by omega), rawLoop_plain (by simpa using hshort) h.noNul, List.nil_append]
  simp only [Option.bind_eq_bind, Option.bind_some, hr, addIndex, hdir, h.put, Bool.false_eq_true,
    if_false, if_pos hpos]
  rfl

-- ---------------------------------------------------------------------------
-- What is opened
-- ---------------------------------------------------------------------------

theorem put_index {name : List Byte}
    (h : name.length + 1 + st.index.bytes.length < nameCap) :
    put name (str "/") = some (name ++ str "/") ∧
      put (name ++ str "/") (st.index.bytes ++ [0]) =
        some (name ++ str "/" ++ (st.index.bytes ++ [0])) := by
  have hslash : (str "/").length = 1 := by decide
  refine ⟨put_eq (by omega), put_eq ?_⟩
  rw [List.length_append, List.length_append, List.length_singleton]
  omega

/-- A name with the index behind it, where it is of a directory. -/
theorem openInto_spec (disk : Disk) {name : List Byte} (hn : 0 ∉ name)
    (hs : name.length < nameCap) :
    ∃ name' stat, openInto st disk name = some (name', stat) ∧ 0 ∉ name' ∧
      name'.length < nameCap ∧
      (name' = name ∨ st.index.bytes ≠ [] ∧ name' = name ++ str "/" ++ st.index.bytes) := by
  have hslash : (str "/").length = 1 := by decide
  unfold openInto
  split
  · exact ⟨_, _, rfl, hn, hs, .inl rfl⟩
  · split
    · exact ⟨_, _, rfl, hn, hs, .inl rfl⟩
    · rename_i h
      simp only [not_or, ge_iff_le, Nat.not_le] at h
      have hzero : 0 ∉ name ++ str "/" ++ st.index.bytes := by
        rw [List.mem_append, List.mem_append]
        rintro ((hc | hc) | hc)
        · exact hn hc
        · exact absurd hc (by decide)
        · exact st.index.noNul hc
      have hlen : (name ++ str "/" ++ st.index.bytes).length < nameCap := by
        rw [List.length_append, List.length_append]
        omega
      obtain ⟨hput, hput'⟩ := put_index h.2
      simp only [Option.bind_eq_bind, hput, Option.bind_some, hput']
      split
      · exact ⟨_, _, rfl, hzero, hlen, .inr ⟨h.1, rfl⟩⟩
      · exact ⟨_, _, rfl, hzero, hlen, .inr ⟨h.1, rfl⟩⟩
  · exact ⟨_, _, rfl, hn, hs, .inl rfl⟩

theorem openInto_openFile (cfg : Config) (hc : cfg.index = st.index.bytes) (disk : Disk)
    (name : List Byte) :
    openFile cfg disk name = (openInto st disk name).bind fun p => p.2.map (p.1, ·) := by
  rw [openFile, openInto, hc]
  rcases disk.openat name with _ | stat | _ | _
  · rfl
  · rfl
  · dsimp only
    split
    · rfl
    · rename_i h
      simp only [not_or, ge_iff_le, Nat.not_le] at h
      obtain ⟨hput, hput'⟩ := put_index h.2
      simp only [Option.bind_eq_bind, hput, Option.bind_some, hput']
      rcases disk.openat (name ++ str "/" ++ st.index.bytes) with _ | stat | _ | _ <;> rfl
  · rfl

/-- A name never leads out of its store: whatever the path, and whatever the
disk answers. It is the name that a worker is given with the file. -/
theorem names_stay_inside (st : Store) (path : List Byte) (decode : Bool) :
    ∃ r, resolve st path decode = some r ∧ ∀ name, r = some name →
      ∃ raw, rawLoop decode path [] = some (some raw) ∧ Resolved st name (asksDir raw) ∧
        (asksDir raw = false → resolve st name false = some (some name)) ∧
        ∀ disk, ∃ name' stat, openInto st disk name = some (name', stat) ∧ 0 ∉ name' ∧
          name'.length < nameCap ∧
          (name' = name ∨ st.index.bytes ≠ [] ∧ name' = name ++ str "/" ++ st.index.bytes) ∧
          ∀ cfg : Config, cfg.index = st.index.bytes →
            openFile cfg disk name = stat.map (name', ·) := by
  obtain ⟨r, hr, hspec⟩ := resolve_spec st path decode
  refine ⟨r, hr, fun name hname => ?_⟩
  obtain ⟨raw, hraw, hres⟩ := hspec name hname
  refine ⟨raw, hraw, hres, fun hd => resolve_again (hd ▸ hres), fun disk => ?_⟩
  obtain ⟨name', stat, ho, hz, hl, hn⟩ := openInto_spec disk hres.noNul hres.short
  refine ⟨name', stat, ho, hz, hl, hn, fun cfg hc => ?_⟩
  rw [openInto_openFile cfg hc, ho]
  rfl

end Ioxd.Files
