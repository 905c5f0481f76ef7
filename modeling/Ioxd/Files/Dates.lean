import Ioxd.Files.Ranges
import Ioxd.Lib.Calendar

/-!
# Dates

`http_date`, `number` and `parse_date` of `lib/http/static.c`: the date of a file
as a reply has it, and the reading of the one that a client sends back.
`gmtime_r` and `timegm` convert by the Gregorian calendar; a year that no `int`
holds, which `gmtime_r` refuses, is a year here like any other.
-/

namespace Ioxd.Files

open Ioxd.Pipe (Byte)
open Ioxd.Http (str sliceTrim isSpace putUint putDigits Ctx)
open Calendar (Date daysBeforeYear daysBeforeMonth)
open Numeral

-- ---------------------------------------------------------------------------
-- The clock
-- ---------------------------------------------------------------------------

/-- `struct tm`: the months count from 0, the years from 1900, the days of the
week from Sunday. -/
structure Tm where
  sec : Int
  min : Int
  hour : Int
  mday : Int
  mon : Int
  year : Int
  wday : Int

def gmtimeR (t : Int) : Tm :=
  let days := t / 86400
  let rest := t % 86400
  let date := Date.ofDays days
  { sec := rest % 60
    min := rest / 60 % 60
    hour := rest / 3600
    mday := date.day
    mon := date.month
    year := date.year - 1900
    wday := (days + 4) % 7 }

/-- The fields need not be in range: a month past the last is of a later year,
and a day, an hour, a minute or a second past the last counts on. -/
def timegm (tm : Tm) : Int :=
  let year := tm.year + 1900 + tm.mon / 12
  let days := daysBeforeYear year + daysBeforeMonth year (tm.mon % 12).toNat + (tm.mday - 1)
  ((days * 24 + tm.hour) * 60 + tm.min) * 60 + tm.sec

-- ---------------------------------------------------------------------------
-- The texts
-- ---------------------------------------------------------------------------

def days : List (List Byte) :=
  [str "Sun", str "Mon", str "Tue", str "Wed", str "Thu", str "Fri", str "Sat"]

def months : List (List Byte) :=
  [str "Jan", str "Feb", str "Mar", str "Apr", str "May", str "Jun", str "Jul", str "Aug",
    str "Sep", str "Oct", str "Nov", str "Dec"]

/-- `%02d` and `%04d`: a sign takes one of the places. -/
def padded (width : Nat) (n : Int) : List Byte :=
  let sign := if n < 0 then str "-" else []
  let digits := putUint n.natAbs
  sign ++ List.replicate (width - sign.length - digits.length) 48 ++ digits

def httpDate (cap : Nat) (t : Int) : List Byte :=
  let tm := gmtimeR t
  snprintf cap (days.getD tm.wday.toNat [] ++ str ", " ++ padded 2 tm.mday ++ str " " ++
    months.getD tm.mon.toNat [] ++ str " " ++ padded 4 (tm.year + 1900) ++ str " " ++
    padded 2 tm.hour ++ str ":" ++ padded 2 tm.min ++ str ":" ++ padded 2 tm.sec ++ str " GMT")

def numberLoop : List Byte → Int → Option Int
  | [], v => some v
  | c :: cs, v => if c < 48 ∨ c > 57 then none else numberLoop cs (v * 10 + (c.toNat - 48))

/-- `number`, of the `n` bytes at an offset. -/
def number (s : List Byte) (off n : Nat) : Option Int := numberLoop ((s.drop off).take n) 0

/-- The loop over the names: the last that the text has at its place. -/
def monthOf (s : List Byte) : Option Nat :=
  (List.range 12).foldl (fun month i =>
    if (s.drop 8).take 3 = months.getD i [] then some i else month) none

def parseDate (s : List Byte) : Option Int :=
  let s := sliceTrim s
  if s.length ≠ 29 ∨ s.getD 3 0 ≠ 44 ∨ s.getD 4 0 ≠ 32 ∨ s.getD 7 0 ≠ 32 ∨ s.getD 11 0 ≠ 32 ∨
      s.getD 16 0 ≠ 32 ∨ s.getD 19 0 ≠ 58 ∨ s.getD 22 0 ≠ 58 ∨ s.drop 25 ≠ str " GMT" then none
  else
    match monthOf s, number s 5 2, number s 12 4, number s 17 2, number s 20 2, number s 23 2 with
    | some month, some mday, some year, some hour, some min, some sec =>
      let t := timegm ⟨sec, min, hour, mday, month, year - 1900, 0⟩
      if t = -1 then none else some t
    | _, _, _, _, _, _ => none

/-- `e->modified`, with the size of its array. -/
def Stat.modified (stat : Stat) : List Byte := httpDate 32 stat.sec

-- ---------------------------------------------------------------------------
-- Numbers
-- ---------------------------------------------------------------------------

theorem numberLoop_digits {s : List Byte} (h : ∀ c ∈ s, (dec c).isSome) (v : Nat) :
    numberLoop s v = some (value dec 10 s v : Nat) := by
  induction s generalizing v with
  | nil => rfl
  | cons c s ih =>
    have hc := h c (List.mem_cons_self ..)
    have hd : 48 ≤ c.toNat ∧ c.toNat ≤ 57 := by
      by_contra hn
      simp [dec, hn] at hc
    have hn : ¬ (c < 48 ∨ c > 57) := by
      rw [UInt8.lt_iff_toNat_lt, gt_iff_lt, UInt8.lt_iff_toNat_lt]
      simp only [UInt8.reduceToNat]
      omega
    rw [numberLoop, if_neg hn, value_cons, dec, if_pos hd, Option.getD_some,
      ← ih (fun c hc => h c (List.mem_cons_of_mem _ hc))]
    congr 1
    omega

theorem length_putDigits_lt {base : Nat} {d : Nat → Byte} {size v w : Nat} (hw : 0 < w)
    (hv : v < base ^ w) : (putDigits base d size v).length ≤ w := by
  induction size generalizing v w with
  | zero => exact Nat.zero_le _
  | succ size ih =>
    unfold putDigits
    split
    · rw [List.nil_append, List.length_singleton]
      exact hw
    · rename_i h0
      obtain ⟨w, rfl⟩ : ∃ k, w = k + 1 := ⟨w - 1, by omega⟩
      have hq : v / base < base ^ w := Nat.div_lt_of_lt_mul (by
        rwa [Nat.pow_succ, Nat.mul_comm] at hv)
      have hpos : 0 < w := by
        by_contra hz
        obtain rfl : w = 0 := by omega
        rw [Nat.pow_zero] at hq
        exact h0 (Nat.lt_one_iff.mp hq)
      rw [List.length_append, List.length_singleton]
      exact Nat.succ_le_succ (ih hpos hq)

theorem padded_reads {w : Nat} {n : Int} (hw : 0 < w ∧ w ≤ 19) (h0 : 0 ≤ n) (hn : n < 10 ^ w) :
    (padded w n).length = w ∧ numberLoop (padded w n) 0 = some n := by
  obtain ⟨k, rfl⟩ := Int.eq_ofNat_of_zero_le h0
  have hk : k < 10 ^ w := by exact_mod_cast hn
  have hmax : k ≤ Http.sizeMax := by
    have : 10 ^ w ≤ 10 ^ 19 := Nat.pow_le_pow_right (by omega) hw.2
    unfold Http.sizeMax
    omega
  have hlen : (putUint k).length ≤ w := length_putDigits_lt hw.1 hk
  obtain ⟨-, hdig, hval⟩ := Http.decimal_putUint hmax
  have hp : padded w k = List.replicate (w - (putUint k).length) 48 ++ putUint k := by
    unfold padded
    rw [if_neg (by omega)]
    rfl
  rw [hp]
  refine ⟨by rw [List.length_append, List.length_replicate]; omega, ?_⟩
  have hz (j : Nat) : value dec 10 (List.replicate j 48) 0 = 0 := by
    induction j with
    | zero => rfl
    | succ j ih => simpa [List.replicate_succ, dec] using ih
  have hall : ∀ c ∈ List.replicate (w - (putUint k).length) 48 ++ putUint k, (dec c).isSome := by
    intro c hc
    rcases List.mem_append.mp hc with hc | hc
    · rw [List.eq_of_mem_replicate hc]
      rfl
    · exact hdig c hc
  have := numberLoop_digits hall 0
  rw [value_append, hz, hval] at this
  exact this

-- ---------------------------------------------------------------------------
-- The way back
-- ---------------------------------------------------------------------------

theorem gmtimeR_ranges (t : Int) : (0 ≤ (gmtimeR t).sec ∧ (gmtimeR t).sec < 60) ∧
    (0 ≤ (gmtimeR t).min ∧ (gmtimeR t).min < 60) ∧ (0 ≤ (gmtimeR t).hour ∧ (gmtimeR t).hour < 24) ∧
    (1 ≤ (gmtimeR t).mday ∧ (gmtimeR t).mday ≤ 31) ∧ (0 ≤ (gmtimeR t).mon ∧ (gmtimeR t).mon < 12) ∧
    (0 ≤ (gmtimeR t).wday ∧ (gmtimeR t).wday < 7) := by
  have hd := (Date.ofDays (t / 86400)).dayOk
  have hm := (Date.ofDays (t / 86400)).monthOk
  have hl : Calendar.monthLength (Date.ofDays (t / 86400)).year (Date.ofDays (t / 86400)).month ≤
      31 := by
    unfold Calendar.monthLength
    split_ifs <;> omega
  unfold gmtimeR
  dsimp only
  omega

theorem timegm_gmtimeR (t : Int) : timegm { gmtimeR t with wday := 0 } = t := by
  have hd := Date.days_ofDays (t / 86400)
  have hday := (Date.ofDays (t / 86400)).dayOk.1
  have hm := (Date.ofDays (t / 86400)).monthOk
  unfold Date.days at hd
  unfold timegm gmtimeR
  dsimp only
  generalize Date.ofDays (t / 86400) = d at hd hday hm
  have h1 : d.year - 1900 + 1900 + (d.month : Int) / 12 = d.year := by omega
  have h2 : ((d.month : Int) % 12).toNat = d.month := by omega
  rw [h1, h2]
  omega

theorem sliceTrim_around {a s b : List Byte} (ha : ∀ c ∈ a, isSpace c = true)
    (hb : ∀ c ∈ b, isSpace c = true) (hh : ∀ c ∈ s.head?, isSpace c = false)
    (ht : ∀ c ∈ s.getLast?, isSpace c = false) : sliceTrim (a ++ s ++ b) = s := by
  unfold sliceTrim
  cases s with
  | nil =>
    have hab : ∀ c ∈ a ++ [] ++ b, isSpace c = true := by
      intro c hc
      rw [List.append_nil] at hc
      exact (List.mem_append.mp hc).elim (ha c) (hb c)
    rw [List.dropWhile_eq_nil_iff.mpr hab]
    rfl
  | cons x s =>
    have hx : isSpace x = false := hh x rfl
    rw [List.append_assoc, List.dropWhile_append_of_pos ha, List.cons_append,
      List.dropWhile_cons_of_neg (by simp [hx]), ← List.cons_append, List.reverse_append,
      List.dropWhile_append_of_pos (by simpa using hb)]
    obtain ⟨y, hy⟩ : ∃ y, (x :: s).getLast? = some y := ⟨_, List.getLast?_cons ..⟩
    have hlast := ht y hy
    obtain ⟨l, hl⟩ := List.getLast?_eq_some_iff.mp hy
    rw [hl, List.reverse_append, List.reverse_singleton, List.singleton_append,
      List.dropWhile_cons_of_neg (by simp [hlast])]
    simp

theorem monthOf_months {s : List Byte} {i : Nat} (hi : i < 12)
    (hs : (s.drop 8).take 3 = months.getD i []) : monthOf s = some i := by
  have hall : ∀ i < 12, (List.range 12).foldl (fun month j =>
      if months.getD i [] = months.getD j [] then some j else month) none = some i := by
    decide +kernel
  unfold monthOf
  rw [hs]
  exact hall i hi

theorem parseDate_columns {w1 w2 w3 d1 d2 m1 m2 m3 y1 y2 y3 y4 h1 h2 i1 i2 s1 s2 : Byte}
    {month : Nat} {mday year hour min sec : Int} {a b : List Byte}
    (ha : ∀ c ∈ a, isSpace c = true) (hb : ∀ c ∈ b, isSpace c = true) (hw : isSpace w1 = false)
    (hm : month < 12) (hmon : months.getD month [] = [m1, m2, m3])
    (hd : numberLoop [d1, d2] 0 = some mday) (hy : numberLoop [y1, y2, y3, y4] 0 = some year)
    (hh : numberLoop [h1, h2] 0 = some hour) (hi : numberLoop [i1, i2] 0 = some min)
    (hs : numberLoop [s1, s2] 0 = some sec) :
    parseDate (a ++ [w1, w2, w3, 44, 32, d1, d2, 32, m1, m2, m3, 32, y1, y2, y3, y4, 32, h1, h2,
      58, i1, i2, 58, s1, s2, 32, 71, 77, 84] ++ b) =
      if timegm ⟨sec, min, hour, mday, month, year - 1900, 0⟩ = -1 then none
      else some (timegm ⟨sec, min, hour, mday, month, year - 1900, 0⟩) := by
  generalize htext : [w1, w2, w3, 44, 32, d1, d2, 32, m1, m2, m3, 32, y1, y2, y3, y4, 32, h1, h2,
    58, i1, i2, 58, s1, s2, 32, 71, 77, 84] = text
  have htrim : sliceTrim (a ++ text ++ b) = text := by
    refine sliceTrim_around ha hb ?_ ?_
    · rw [← htext]
      simpa using hw
    · rw [← htext]
      intro c hc
      cases hc
      rfl
  have hmo : monthOf text = some month :=
    monthOf_months hm (by rw [← htext]; exact hmon.symm)
  have hd : number text 5 2 = some mday := by rw [← htext]; exact hd
  have hy : number text 12 4 = some year := by rw [← htext]; exact hy
  have hh : number text 17 2 = some hour := by rw [← htext]; exact hh
  have hi : number text 20 2 = some min := by rw [← htext]; exact hi
  have hs : number text 23 2 = some sec := by rw [← htext]; exact hs
  have hplaces : ¬ (text.length ≠ 29 ∨ text.getD 3 0 ≠ 44 ∨ text.getD 4 0 ≠ 32 ∨
      text.getD 7 0 ≠ 32 ∨ text.getD 11 0 ≠ 32 ∨ text.getD 16 0 ≠ 32 ∨ text.getD 19 0 ≠ 58 ∨
      text.getD 22 0 ≠ 58 ∨ text.drop 25 ≠ str " GMT") := by
    rw [← htext]
    simp only [not_or, not_not]
    exact ⟨rfl, rfl, rfl, rfl, rfl, rfl, rfl, rfl, rfl⟩
  unfold parseDate
  rw [htrim]
  dsimp only
  rw [if_neg hplaces, hmo, hd, hy, hh, hi, hs]

/-- What is written for a time is read back as that time, with whatever white
space around it. -/
theorem parseDate_httpDate {t : Int} (h1 : t ≠ -1) (hy : 0 ≤ (gmtimeR t).year + 1900)
    (hy' : (gmtimeR t).year + 1900 ≤ 9999) {a b : List Byte} (ha : ∀ c ∈ a, isSpace c = true)
    (hb : ∀ c ∈ b, isSpace c = true) : parseDate (a ++ httpDate 32 t ++ b) = some t := by
  obtain ⟨hsec, hmin, hhour, hmday, hmon, hwday⟩ := gmtimeR_ranges t
  have hback := timegm_gmtimeR t
  unfold httpDate
  generalize gmtimeR t = tm at *
  obtain ⟨month, hmonth⟩ := Int.eq_ofNat_of_zero_le hmon.1
  obtain ⟨wday, hwd⟩ := Int.eq_ofNat_of_zero_le hwday.1
  have hdays : ∀ i < 7, (days.getD i []).length = 3 ∧
      (days.getD i []).head?.all (isSpace · = false) = true := by decide +kernel
  have hmonths : ∀ i < 12, (months.getD i []).length = 3 := by decide +kernel
  obtain ⟨hl, hsp⟩ := hdays wday (by omega)
  obtain ⟨w1, w2, w3, hw⟩ := List.length_eq_three.mp hl
  obtain ⟨m1, m2, m3, hm⟩ := List.length_eq_three.mp (hmonths month (by omega))
  obtain ⟨hdl, hdn⟩ := padded_reads (w := 2) (n := tm.mday) (by omega) (by omega) (by omega)
  obtain ⟨hyl, hyn⟩ := padded_reads (w := 4) (n := tm.year + 1900) (by omega) (by omega) (by omega)
  obtain ⟨hhl, hhn⟩ := padded_reads (w := 2) (n := tm.hour) (by omega) (by omega) (by omega)
  obtain ⟨hil, hin⟩ := padded_reads (w := 2) (n := tm.min) (by omega) (by omega) (by omega)
  obtain ⟨hsl, hsn⟩ := padded_reads (w := 2) (n := tm.sec) (by omega) (by omega) (by omega)
  obtain ⟨d1, d2, hd⟩ := List.length_eq_two.mp hdl
  obtain ⟨y1, y2, y3, y4, hyr⟩ : ∃ y1 y2 y3 y4, padded 4 (tm.year + 1900) = [y1, y2, y3, y4] := by
    match padded 4 (tm.year + 1900), hyl with
    | [y1, y2, y3, y4], _ => exact ⟨y1, y2, y3, y4, rfl⟩
  obtain ⟨h1', h2', hh⟩ := List.length_eq_two.mp hhl
  obtain ⟨i1, i2, hi⟩ := List.length_eq_two.mp hil
  obtain ⟨s1, s2, hs⟩ := List.length_eq_two.mp hsl
  rw [hd] at hdn
  rw [hyr] at hyn
  rw [hh] at hhn
  rw [hi] at hin
  rw [hs] at hsn
  have hw1 : isSpace w1 = false := by
    rw [hw] at hsp
    simpa using hsp
  dsimp only
  rw [hmonth, hwd, Int.toNat_natCast, Int.toNat_natCast, hw, hm, hd, hyr, hh, hi, hs]
  refine (parseDate_columns ha hb hw1 (by omega) hm hdn hyn hhn hin hsn).trans ?_
  have htm : (⟨tm.sec, tm.min, tm.hour, tm.mday, month, tm.year + 1900 - 1900, 0⟩ : Tm) =
      { tm with wday := 0 } := by
    rw [hmonth, Int.add_sub_cancel]
  rw [htm, hback, if_neg h1]

-- ---------------------------------------------------------------------------
-- A date sent back
-- ---------------------------------------------------------------------------

/-- `ioxd_req_header`: the first of that name. -/
def reqHeader (headers : List Http.Header) (name : List Byte) : Option (List Byte) :=
  (headers.find? (·.name == some name)).map (·.value)

/-- The conditions of a request, as `not_modified` finds them in its headers. -/
def Request.conditions (req : Request) (headers : List Http.Header) : Request :=
  { req with
    ifNoneMatch := reqHeader headers (str "if-none-match")
    ifModifiedSince := (reqHeader headers (str "if-modified-since")).bind parseDate }

/-- A reply from a file of this status, loaded or streamed: what `head_of` gets
of it. -/
structure RepliesOf (req : Request) (stat : Stat) (r : Http.Static.Reply) : Prop where
  etag : r.etag = stat.etag
  modified : r.modified = stat.modified
  notModified : r.notModified = req.notModified stat.etag stat.sec

/-- The client has sent the date back, and no tags. -/
structure Echoes (headers : List Http.Header) (sent : Http.Static.Reply) : Prop where
  noTags : reqHeader headers (str "if-none-match") = none
  since : ∃ a b, (∀ c ∈ a, isSpace c = true) ∧ (∀ c ∈ b, isSpace c = true) ∧
    reqHeader headers (str "if-modified-since") = some (a ++ sent.modified ++ b)

theorem notModified_echoed {stat : Stat} (h1 : stat.sec ≠ -1)
    (hy : 0 ≤ (gmtimeR stat.sec).year + 1900) (hy' : (gmtimeR stat.sec).year + 1900 ≤ 9999)
    {headers : List Http.Header} {sent : Http.Static.Reply} (hm : sent.modified = stat.modified)
    (he : Echoes headers sent) (req : Request) :
    (req.conditions headers).notModified stat.etag stat.sec = true := by
  obtain ⟨a, b, ha, hb, hs⟩ := he.since
  have hp := parseDate_httpDate h1 hy hy' ha hb
  unfold Request.notModified Request.conditions
  rw [hm] at hs
  simp only [he.noTags, hs, Option.bind_some]
  rw [show parseDate (a ++ stat.modified ++ b) = some stat.sec from hp]
  exact decide_eq_true (Int.le_refl _)

/-- A date reads back, and a client that sends back the one it was sent is told
that the file has not changed. -/
theorem dates_read_back {t : Int} (h1 : t ≠ -1) (hy : 0 ≤ (gmtimeR t).year + 1900)
    (hy' : (gmtimeR t).year + 1900 ≤ 9999) : parseDate (httpDate 32 t) = some t ∧
    ∀ (stat : Stat) (sent r : Http.Static.Reply) (headers : List Http.Header) (req req' : Request)
      (ctx : Ctx), stat.sec = t → RepliesOf req stat sent → Echoes headers sent →
      RepliesOf (req'.conditions headers) stat r → (r.head ctx).res.status = 304 ∧ r.body = [] := by
  constructor
  · have hp := parseDate_httpDate h1 hy hy' (a := []) (b := []) nofun nofun
    rwa [List.nil_append, List.append_nil] at hp
  · rintro stat sent r headers req req' ctx rfl hsent he hr
    have hn : r.notModified = true :=
      hr.notModified.trans (notModified_echoed h1 hy hy' hsent.modified he req')
    constructor
    · unfold Http.Static.Reply.head
      rw [hn]
      rfl
    · unfold Http.Static.Reply.body Http.Static.Reply.sends
      rw [hn]
      rfl

/-- A style sheet of 1994, and the reply that says it has not changed. -/
def oldStat : Stat := ⟨1, 2, 3, 784111777, 0⟩

def oldReply : Http.Static.Reply where
  type := str "text/css"
  typed := by decide
  etag := oldStat.etag
  modified := oldStat.modified
  cacheControl := none
  twins := false
  variant := none
  data := []
  notModified := true
  range := .none

def echoing : List Http.Header :=
  [⟨some (str "if-modified-since"), str " Sun, 06 Nov 1994 08:49:37 GMT "⟩]

theorem dates_read_back_1994 :
    parseDate (str "Sun, 06 Nov 1994 08:49:37 GMT") = some 784111777 ∧
      ∀ ctx : Ctx, (oldReply.head ctx).res.status = 304 := by
  have htext : httpDate 32 784111777 = str "Sun, 06 Nov 1994 08:49:37 GMT" := by decide +kernel
  obtain ⟨h1, h2⟩ := dates_read_back (t := 784111777) (by decide) (by decide +kernel)
    (by decide +kernel)
  refine ⟨htext ▸ h1, fun ctx => ?_⟩
  have he : Echoes echoing oldReply := by
    have hsp : ∀ c ∈ str " ", isSpace c = true := List.all_eq_true.mp (by decide)
    refine ⟨by decide +kernel, str " ", str " ", hsp, hsp, ?_⟩
    show _ = some (str " " ++ httpDate 32 784111777 ++ str " ")
    rw [htext]
    decide +kernel
  have hr : RepliesOf (Request.conditions ⟨str "GET", fun _ => 0, none, none, none, none⟩ echoing)
      oldStat oldReply := ⟨rfl, rfl, by decide +kernel⟩
  exact (h2 oldStat oldReply oldReply echoing _ _ ctx rfl hr he hr).1

end Ioxd.Files
