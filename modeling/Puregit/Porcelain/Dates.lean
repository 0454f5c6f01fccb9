import Mathlib.Data.Bool.AllAny
import Puregit.Lib.Calendar
import Puregit.Object.RoundTrip
import Puregit.Protocol.Request

/-! # Dates

A stamp has its time in seconds since 1970, and an offset of its time zone.  It is shown as the date
and the time of day in that zone; the date comes from the days by the arithmetic of the calendar, in
which the year begins in March.  A date that the user gives is parsed, and its days come from the
date the same way.

Numbers are those of an `i64`, which wrap around.  `civilFromDays_spec` says that the days and the
dates are those of the calendar.
-/
namespace Puregit
open Calendar

/-- The value that an `i64` has for a number. -/
def i64 (n : Int) : Int := n.bmod (2 ^ 64)

/-- The value of a cast to `u32`. -/
def u32 (n : Int) : Nat := (n % 2 ^ 32).toNat

/-- Days since 1970-01-01 of a date. -/
def daysFromCivil (y : Int) (m d : Nat) : Int :=
  let y := if m ≤ 2 then i64 (y - 1) else y
  let era := (if 0 ≤ y then y else i64 (y - 399)).tdiv 400
  let yoe := i64 (y - era * 400)
  let mp := ((m : Int) + 9).tmod 12
  let doy := (153 * mp + 2).tdiv 5 + d - 1
  let doe := i64 (yoe * 365 + yoe.tdiv 4 - yoe.tdiv 100 + doy)
  i64 (era * 146097 + doe - 719468)

/-- The date of a number of days since 1970-01-01. -/
def civilFromDays (z : Int) : Int × Nat × Nat :=
  let z := i64 (z + 719468)
  let era := (if 0 ≤ z then z else i64 (z - 146096)).tdiv 146097
  let doe := i64 (z - era * 146097)
  let yoe := (doe - doe.tdiv 1460 + doe.tdiv 36524 - doe.tdiv 146096).tdiv 365
  let y := i64 (yoe + era * 400)
  let doy := i64 (doe - (365 * yoe + yoe.tdiv 4 - yoe.tdiv 100))
  let mp := (i64 (5 * doy + 2)).tdiv 153
  let d := u32 (i64 (doy - (153 * mp + 2).tdiv 5 + 1))
  let m := u32 (if mp < 10 then mp + 3 else mp - 9)
  (if m ≤ 2 then i64 (y + 1) else y, m, d)

/-- The seconds east of Greenwich of an offset. -/
def tzOffset (tz : Bytes) : Int :=
  let s := (fromUtf8 tz).getD (str "+0000")
  let (sign, digits) := match s with
    | '-' :: r => (-1, r)
    | '+' :: r => (1, r)
    | r => ((1 : Int), r)
  let n := (parseI64 digits).getD 0
  i64 (sign * (n.tdiv 100 * 3600 + n.tmod 100 * 60))

/-- A time in a time zone. -/
structure LocalFields where
  year : Int
  month : Nat
  day : Nat
  hour : Nat
  minute : Nat
  second : Nat
  weekday : Nat

/-- The fields of a time in a time zone. -/
def localFields (time : Int) (tz : Bytes) : LocalFields :=
  let t := i64 (time + tzOffset tz)
  let days := t / 86400
  let secs := t % 86400
  let (y, m, d) := civilFromDays days
  ⟨y, m, d, u32 (secs / 3600), u32 (secs % 3600 / 60), u32 (secs % 60), u32 ((days + 4) % 7)⟩

/-- A number of two digits at least. -/
def pad2 (n : Nat) : Str := if n < 10 then '0' :: natStr n else natStr n

/-- The date and time of a stamp, in its time zone. -/
def fmtDateIso (sig : Signature) : Str :=
  let f := localFields sig.time sig.tz
  intStr f.year ++ '-' :: pad2 f.month ++ '-' :: pad2 f.day ++ ' ' :: pad2 f.hour ++
    ':' :: pad2 f.minute
    ++ ':' :: pad2 f.second ++ ' ' :: fromUtf8Lossy sig.tz

/-- Whether an offset is a sign and four digits. -/
def validTz (tz : Str) : Bool :=
  let b := toUtf8 tz
  b.length = 5 && (b.head? = some 43 || b.head? = some 45) && b.tail.all fun c => 48 ≤ c && c ≤ 57

/-- Parses a date and time, and the offset behind it. -/
def parseIso (s : Str) : Option (Int × Bytes) :=
  let isMark := fun c => c == 'T' || c == ' '
  match s.dropWhile fun c => !isMark c with
  | [] => none
  | _ :: rest =>
    let date := s.takeWhile fun c => !isMark c
    let rest := trim rest
    let (time, tz) := match splitOnce ' ' rest with
      | some (t, z) => (t, trim z)
      | none => (rest, str "+0000")
    let tz := if tz = str "Z" then str "+0000" else tz
    if !validTz tz then none
    else do
      let dp := (date.splitOn '-').map parseI64
      let y ← dp[0]?.join
      let mo ← dp[1]?.join
      let d ← dp[2]?.join
      let tp := (time.splitOn ':').map parseI64
      let h ← tp[0]?.join
      let mi ← tp[1]?.join
      let sec := tp[2]?.join.getD 0
      let time := i64 (daysFromCivil y (u32 mo) (u32 d) * 86400 + h * 3600 + mi * 60 + sec)
      some (i64 (time - tzOffset (toUtf8 tz)), toUtf8 tz)

/-- Parses a date: seconds and an offset, or a date and time. -/
def parseDate (s : Str) : Option (Int × Bytes) :=
  let s := trim s
  let raw := (stripPrefix? ['@'] s).getD s
  match splitWhitespace raw with
  | [] => parseIso s
  | secs :: rest =>
    match parseI64 secs with
    | none => parseIso s
    | some secs =>
      let tz := rest.head?.getD (str "+0000")
      if rest.tail = [] && validTz tz then some (secs, toUtf8 tz) else none

/-! ## The arithmetic of the calendar -/

theorem i64_eq {n : Int} (h : Signature.IsI64 n) : i64 n = n := by
  obtain ⟨hlo, hhi⟩ := h
  rw [i64, Int.bmod_def]
  split <;> omega

/-- Truncating division of a number moved down, where it is negative, rounds down. -/
theorem tdiv_down (z k : Int) (hk : 0 < k) : (if 0 ≤ z then z else z - (k - 1)).tdiv k = z / k := by
  split
  · rename_i h
    exact Int.tdiv_eq_ediv_of_nonneg h
  · rename_i h
    have hup : z - (k - 1) = -(k - 1 - z % k + k * -(z / k)) := by
      have hz := Int.mul_ediv_add_emod z k
      rw [Int.mul_neg]
      omega
    have hlt := Int.emod_lt_of_pos z hk
    have hnonneg : 0 ≤ k - 1 - z % k + k * -(z / k) := by omega
    rw [hup, Int.neg_tdiv, Int.tdiv_eq_ediv_of_nonneg hnonneg, Int.add_mul_ediv_left _ _ (by omega),
      Int.ediv_eq_zero_of_lt (by omega) (by have := Int.emod_nonneg z (Int.ne_of_gt hk); omega),
        Int.zero_add, Int.neg_neg]

/-- The century of a day of the cycle; the last day of the cycle alone would begin a fifth. -/
theorem centuryOfCycle {c r doe : Int} (hc : 0 ≤ c ∧ c ≤ 3) (hr : 0 ≤ r ∧ r ≤ 36524)
    (hlast : r = 36524 → c = 3) (hdoe : doe = 36524 * c + r) : doe / 36524 - doe / 146096 = c := by
  by_cases hend : r = 36524
  · obtain rfl := hlast hend
    subst hend hdoe
    decide
  · have hcentury : doe / 36524 = c := by omega
    have hzero : doe / 146096 = 0 := by omega
    omega

theorem quadOfCycle {c q s doe : Int} (hdoe : doe = 36524 * c + 1461 * q + s) :
    doe / 1460 = 25 * c + q + (24 * c + q + s) / 1460 := by
  have hsplit : doe = (24 * c + q + s) + 1460 * (25 * c + q) := by omega
  rw [hsplit, Int.add_mul_ediv_left _ _ (by decide), Int.add_comm]

/-- The year of a cycle of 400 years, from the day of the cycle. -/
theorem yearOfCycle {c q t doy : Int} (hc : 0 ≤ c ∧ c ≤ 3) (hq : 0 ≤ q ∧ q ≤ 24)
    (ht : 0 ≤ t ∧ t ≤ 3) (hdoy : 0 ≤ doy ∧ doy ≤ 365) (hlast : doy = 365 → t = 3 ∧ (q = 24 → c = 3))
    {doe : Int} (hdoe : doe = 36524 * c + 1461 * q + 365 * t + doy) :
    (doe - doe / 1460 + doe / 36524 - doe / 146096) / 365 = 100 * c + 4 * q + t := by
  have hcentury := @centuryOfCycle c (1461 * q + 365 * t + doy) doe hc (by omega)
    (by omega) (by omega)
  have hquad := @quadOfCycle c q (365 * t + doy) doe (by omega)
  obtain ⟨left, hleft⟩ : ∃ left, left = (24 * c + q + (365 * t + doy)) / 1460 := ⟨_, rfl⟩
  rw [← hleft] at hquad
  have hsum : doe - doe / 1460 + doe / 36524 - doe / 146096 =
      doy - left + 365 * (100 * c + 4 * q + t) := by
    clear hleft hlast
    omega
  have hsmall : 0 ≤ doy - left ∧ doy - left < 365 := by
    clear hcentury hquad hdoe hsum
    by_cases hleap : doy = 365
    · obtain ⟨rfl, -⟩ := hlast hleap
      omega
    · clear hlast
      omega
  rw [hsum, Int.add_mul_ediv_left _ _ (by decide),
    Int.ediv_eq_zero_of_lt hsmall.1 hsmall.2, Int.zero_add]

theorem marchMonth_range (D : Date) : 0 ≤ D.marchMonth ∧ D.marchMonth ≤ 11 := by
  have h := D.month_range
  unfold Date.marchMonth
  split <;> omega

theorem marchYear_eq (D : Date) : D.marchYear = if D.month ≤ 2 then D.year - 1 else D.year := rfl

/-- A day of the year that begins in March: its last may be the leap day. -/
theorem marchDay_range (D : Date) : 0 ≤ D.marchDay ∧ D.marchDay ≤ 365 ∧
    (D.marchDay = 365 → IsLeap (D.marchYear + 1)) ∧
      (D.marchMonth < 11 → 5 * D.marchDay + 2 < 153 * (D.marchMonth + 1)) := by
  obtain ⟨year, month, day, ⟨hlo, hhi⟩, hday, hlength⟩ := D
  simp only [Date.marchDay, Date.marchMonth, Date.marchYear, monthLength] at hlength ⊢
  by_cases h : IsLeap year
  · interval_cases month
    all_goals simp [h] at hlength ⊢
    all_goals omega
  · interval_cases month
    all_goals simp [h] at hlength ⊢
    all_goals omega

/-- **The days of a date** are those of the calendar, from 1970 on. -/
theorem daysFromCivil_eq {D : Date} (h : -2 ^ 50 < D.year ∧ D.year < 2 ^ 50) :
    daysFromCivil D.year D.month D.day = D.dayNumber - 719468 := by
  have hday := marchDay_range D
  have hrange := marchMonth_range D
  have hy : (if D.month ≤ 2 then i64 (D.year - 1) else D.year) = D.marchYear := by
    rw [i64_eq (by unfold Signature.IsI64; omega)]
    rfl
  have hbound : -2 ^ 50 ≤ D.marchYear ∧ D.marchYear < 2 ^ 50 := by
    rw [marchYear_eq]
    split <;> omega
  have hera : (if 0 ≤ D.marchYear then D.marchYear else i64 (D.marchYear - 399)).tdiv 400 =
      D.marchYear / 400 := by
    rw [i64_eq (by unfold Signature.IsI64; omega)]
    exact tdiv_down _ 400 (by decide)
  have hyoe : i64 (D.marchYear - D.marchYear / 400 * 400) = D.marchYear % 400 := by
    rw [i64_eq (by unfold Signature.IsI64; omega)]
    omega
  have hmp : ((D.month : Int) + 9).tmod 12 = D.marchMonth := by
    have hmonth := D.month_range
    rw [Int.tmod_eq_emod_of_nonneg (by omega)]
    unfold Date.marchMonth
    split <;> omega
  have hdoy : (153 * D.marchMonth + 2).tdiv 5 + D.day - 1 = D.marchDay := by
    rw [Int.tdiv_eq_ediv_of_nonneg (by omega)]
    rfl
  have hdoe : i64 (D.marchYear % 400 * 365 + (D.marchYear % 400).tdiv 4 -
        (D.marchYear % 400).tdiv 100 + D.marchDay) =
      D.marchYear % 400 * 365 + D.marchYear % 400 / 4 - D.marchYear % 400 / 100 + D.marchDay := by
    rw [Int.tdiv_eq_ediv_of_nonneg (by omega), Int.tdiv_eq_ediv_of_nonneg (by omega)]
    exact i64_eq (by unfold Signature.IsI64; omega)
  rw [daysFromCivil]
  simp only [hy, hera, hyoe, hmp, hdoy, hdoe]
  rw [i64_eq (by unfold Signature.IsI64; omega), Date.dayNumber, Date.yearStart]
  omega

/-- A day that is not too far off is in a year that is not. -/
theorem year_range {D : Date} (h : -2 ^ 50 < D.dayNumber ∧ D.dayNumber < 2 ^ 50) :
    -2 ^ 50 < D.year ∧ D.year < 2 ^ 50 := by
  have hday := marchDay_range D
  have hnumber : D.dayNumber = Date.yearStart D.marchYear + D.marchDay := rfl
  have hbound : -2 ^ 49 < D.marchYear ∧ D.marchYear < 2 ^ 49 := by
    rw [Date.yearStart] at hnumber
    omega
  rw [marchYear_eq] at hbound
  split at hbound <;> omega

/-- Where a day is in a cycle of 400 years: the years are `t` of four of `q` of a century, and
before them `c` centuries. -/
theorem exists_cycle (D : Date) :
    ∃ era c q t : Int, D.marchYear = 400 * era + (100 * c + 4 * q + t) ∧
    D.dayNumber = 146097 * era + (36524 * c + 1461 * q + 365 * t + D.marchDay) ∧ (0 ≤ c ∧ c ≤ 3) ∧
      (0 ≤ q ∧ q ≤ 24) ∧
      (0 ≤ t ∧ t ≤ 3) ∧ (D.marchDay = 365 → t = 3 ∧ (q = 24 → c = 3)) := by
  obtain ⟨-, -, hleap, -⟩ := marchDay_range D
  have hnumber : D.dayNumber = Date.yearStart D.marchYear + D.marchDay := rfl
  rw [Date.yearStart] at hnumber
  obtain ⟨era, yoe, hera, hyoe⟩ : ∃ era yoe, D.marchYear = 400 * era + yoe ∧ 0 ≤ yoe ∧ yoe < 400 :=
    ⟨D.marchYear / 400, D.marchYear % 400, by omega, by omega, by omega⟩
  obtain ⟨c, r, hc, hr⟩ : ∃ c r, yoe = 100 * c + r ∧ 0 ≤ r ∧ r < 100 :=
    ⟨yoe / 100, yoe % 100, by omega, by omega, by omega⟩
  obtain ⟨q, t, hq, ht⟩ : ∃ q t, r = 4 * q + t ∧ 0 ≤ t ∧ t < 4 :=
    ⟨r / 4, r % 4, by omega, by omega, by omega⟩
  have hcenturies : D.marchYear / 100 = 4 * era + c := by omega
  have hquads : D.marchYear / 4 = 100 * era + 25 * c + q := by omega
  have hcycles : D.marchYear / 400 = era := by omega
  refine ⟨era, c, q, t, by omega, by omega, by omega, by omega, by omega, fun h => ?_⟩
  have hl := hleap h
  unfold IsLeap at hl
  omega

/-- **The date of the days** is that of the calendar. -/
theorem civilFromDays_eq {D : Date} (h : -2 ^ 60 < D.dayNumber ∧ D.dayNumber < 2 ^ 60) :
    civilFromDays (D.dayNumber - 719468) = (D.year, D.month, D.day) := by
  obtain ⟨hday, hday', -, hmonth⟩ := marchDay_range D
  obtain ⟨era, c, q, t, hmarch, hdays, hc, hq, ht, hlast⟩ := exists_cycle D
  obtain ⟨doe, hdoe⟩ : ∃ doe, doe = 36524 * c + 1461 * q + 365 * t + D.marchDay := ⟨_, rfl⟩
  obtain ⟨yoe, hyoe⟩ : ∃ yoe, yoe = 100 * c + 4 * q + t := ⟨_, rfl⟩
  have hin : 0 ≤ doe ∧ doe < 146097 := by omega
  have hyear : (doe - doe.tdiv 1460 + doe.tdiv 36524 - doe.tdiv 146096).tdiv 365 = yoe := by
    have hless : doe / 1460 ≤ doe ∧ doe / 146096 ≤ doe / 36524 := by omega
    rw [Int.tdiv_eq_ediv_of_nonneg hin.1, Int.tdiv_eq_ediv_of_nonneg hin.1,
      Int.tdiv_eq_ediv_of_nonneg hin.1,
      Int.tdiv_eq_ediv_of_nonneg (by omega), yearOfCycle hc hq ht ⟨hday, hday'⟩ hlast hdoe, hyoe]
  have hdoy : i64 (doe - (365 * yoe + yoe.tdiv 4 - yoe.tdiv 100)) = D.marchDay := by
    have hcentury : yoe / 100 = c := by omega
    have hquad : yoe / 4 = 25 * c + q := by omega
    rw [Int.tdiv_eq_ediv_of_nonneg (by omega), Int.tdiv_eq_ediv_of_nonneg (by omega),
      hcentury, hquad,
      i64_eq (by unfold Signature.IsI64; omega)]
    omega
  rw [← hdoe] at hdays
  rw [← hyoe] at hmarch
  clear hlast hdoe
  have hz : i64 (D.dayNumber - 719468 + 719468) = D.dayNumber := by
    rw [Int.sub_add_cancel]
    exact i64_eq (by unfold Signature.IsI64; omega)
  have hcycle : (if 0 ≤ D.dayNumber then D.dayNumber else i64 (D.dayNumber - 146096)).tdiv
      146097 = era := by
    rw [i64_eq (by unfold Signature.IsI64; omega)]
    refine (tdiv_down _ 146097 (by decide)).trans ?_
    omega
  have hrest : i64 (D.dayNumber - era * 146097) = doe := by
    rw [i64_eq (by unfold Signature.IsI64; omega)]
    omega
  have hy : i64 (yoe + era * 400) = D.marchYear := by
    rw [i64_eq (by unfold Signature.IsI64; omega)]
    omega
  have hrange := marchMonth_range D
  have hmarchDay : D.marchDay = (153 * D.marchMonth + 2) / 5 + D.day - 1 := rfl
  have hfirst := D.day_range.1
  have hmp : (i64 (5 * D.marchDay + 2)).tdiv 153 = D.marchMonth := by
    rw [i64_eq (by unfold Signature.IsI64; omega), Int.tdiv_eq_ediv_of_nonneg (by omega)]
    omega
  have hd : u32 (i64 (D.marchDay - (153 * D.marchMonth + 2).tdiv 5 + 1)) = D.day := by
    have hlength : D.day ≤ 31 := D.day_range.2.trans (monthLength_le _ _)
    rw [Int.tdiv_eq_ediv_of_nonneg (by omega), i64_eq (by unfold Signature.IsI64; omega), u32]
    omega
  have hm : u32 (if D.marchMonth < 10 then D.marchMonth + 3 else D.marchMonth - 9) = D.month := by
    have hmonths := D.month_range
    unfold Date.marchMonth u32
    split <;> split <;> omega
  have hjanuary : (if D.month ≤ 2 then i64 (D.marchYear + 1) else D.marchYear) = D.year := by
    rw [i64_eq (by unfold Signature.IsI64; omega), marchYear_eq]
    split <;> omega
  rw [civilFromDays]
  simp only [hz, hcycle, hrest, hyear, hdoy, hmp, hd, hm, hy, hjanuary]

/-! ## The text of a date -/

/-- A character of a date and time, but for the spaces. -/
def DateChar (c : Char) : Prop := c.isDigit = true ∨ c ∈ str "-:+"

/-- A date, as it is written. -/
def dateText (y : Int) (mo d : Nat) : Str := intStr y ++ '-' :: pad2 mo ++ '-' :: pad2 d

/-- A time of day, as it is written. -/
def timeText (h mi s : Nat) : Str := pad2 h ++ ':' :: pad2 mi ++ ':' :: pad2 s

theorem fmtDateIso_eq {sig : Signature} {tz : Str} (htz : toUtf8 tz = sig.tz) :
    fmtDateIso sig = dateText (localFields sig.time sig.tz).year (localFields sig.time sig.tz).month
      (localFields sig.time sig.tz).day ++ ' ' :: (timeText (localFields sig.time sig.tz).hour
        (localFields sig.time sig.tz).minute (localFields sig.time sig.tz).second ++
          ' ' :: tz) := by
  have hlossy : fromUtf8Lossy sig.tz = tz := by rw [← htz, fromUtf8Lossy_toUtf8]
  rw [fmtDateIso, hlossy, dateText, timeText]
  simp only [List.append_assoc, List.cons_append]

theorem DateChar.plain {c : Char} (h : DateChar c) :
    isWhitespace c = false ∧ c ≠ 'T' ∧ c ≠ ' ' ∧ c ≠ '@' := by
  rcases h with h | h
  · have hrange : 48 ≤ c.toNat ∧ c.toNat ≤ 57 := by
      rw [Char.isDigit, Bool.and_eq_true, decide_eq_true_eq, decide_eq_true_eq] at h
      exact h
    have hne : ∀ d : Char, ¬(48 ≤ d.toNat ∧ d.toNat ≤ 57) → c ≠ d := by
      rintro d hd rfl
      exact hd hrange
    refine ⟨?_, hne _ (by decide), hne _ (by decide), hne _ (by decide)⟩
    simp only [isWhitespace, Bool.or_eq_false_iff, Bool.and_eq_false_iff, decide_eq_false_iff_not,
      beq_eq_false_iff_ne]
    omega
  · have hall : ∀ c ∈ str "-:+", isWhitespace c = false ∧ c ≠ 'T' ∧ c ≠ ' ' ∧ c ≠ '@' :=
      List.all_iff_forall_prop.mp (by decide)
    exact hall c h

theorem mem_pad2 {n : Nat} {c : Char} (h : c ∈ pad2 n) : c.isDigit = true := by
  rw [pad2] at h
  split at h
  · rcases List.mem_cons.mp h with rfl | h
    · rfl
    · exact isDigit_natStr h
  · exact isDigit_natStr h

theorem pad2_ne_nil (n : Nat) : pad2 n ≠ [] := by
  rw [pad2]
  split
  · exact List.cons_ne_nil _ _
  · exact natStr_ne_nil n

theorem dateChar_pad2 {n : Nat} : ∀ c ∈ pad2 n, DateChar c := fun _ hc => Or.inl (mem_pad2 hc)

theorem dateChar_dateText {y : Int} {mo d : Nat} : ∀ c ∈ dateText y mo d, DateChar c := by
  have hyear : ∀ c ∈ intStr y, DateChar c := fun c hc =>
    (Signature.mem_secs hc).elim (fun h => Or.inr (h ▸ by decide)) Or.inl
  have hdash : DateChar '-' := Or.inr (by decide)
  simp only [dateText, List.append_assoc, List.cons_append, List.forall_mem_append,
    List.forall_mem_cons]
  exact ⟨hyear, hdash, dateChar_pad2, hdash, dateChar_pad2⟩

theorem dateChar_timeText {h mi s : Nat} : ∀ c ∈ timeText h mi s, DateChar c := by
  have hcolon : DateChar ':' := Or.inr (by decide)
  simp only [timeText, List.append_assoc, List.cons_append, List.forall_mem_append,
    List.forall_mem_cons]
  exact ⟨dateChar_pad2, hcolon, dateChar_pad2, hcolon, dateChar_pad2⟩

theorem splitOn_timeText (h mi s : Nat) :
    (timeText h mi s).splitOn ':' = [pad2 h, pad2 mi, pad2 s] := by
  have hcolon : ∀ n, ':' ∉ pad2 n := fun n hmem => by cases mem_pad2 hmem
  rw [timeText, List.append_assoc, List.cons_append,
    List.splitOn_append_cons_self_of_not_mem (hcolon h),
    List.splitOn_append_cons_self_of_not_mem (hcolon mi), List.splitOn_eq_singleton (hcolon s)]

/-- A year that is not negative is all that stands before the first dash. -/
theorem splitOn_dateText (n mo d : Nat) :
    (dateText n mo d).splitOn '-' = [natStr n, pad2 mo, pad2 d] := by
  have hdash : ∀ n, '-' ∉ pad2 n := fun n hmem => by cases mem_pad2 hmem
  have hnat : '-' ∉ natStr n := fun hmem => by cases isDigit_natStr hmem
  have htext : dateText n mo d = natStr n ++ '-' :: (pad2 mo ++ '-' :: pad2 d) :=
    List.append_assoc _ _ _
  rw [htext, List.splitOn_append_cons_self_of_not_mem hnat,
    List.splitOn_append_cons_self_of_not_mem (hdash mo),
    List.splitOn_eq_singleton (hdash d)]

/-- An offset is a sign and four digits. -/
theorem exists_of_validTz {tz : Str} (h : validTz tz = true) :
    ∃ sign digits, tz = sign :: digits ∧ (sign = '+' ∨ sign = '-') ∧
    digits.length = 4 ∧ ∀ c ∈ digits, c.isDigit = true := by
  simp only [validTz, Bool.and_eq_true, Bool.or_eq_true, decide_eq_true_eq, List.all_eq_true] at h
  obtain ⟨⟨hlength, hsign⟩, hdigits⟩ := h
  have hdecode := fromUtf8_toUtf8 tz
  cases htz : toUtf8 tz with
  | nil =>
      rw [htz] at hlength
      cases hlength
  | cons x b =>
      rw [htz] at hlength hsign hdigits hdecode
      have hascii : ∀ y ∈ x :: b, y.toNat < 128 := by
        refine List.forall_mem_cons.mpr ⟨?_, fun y hy =>
          lt_of_le_of_lt (UInt8.le_iff_toNat_le.mp (hdigits y hy).2) (by decide)⟩
        rcases hsign with hsign | hsign
        · cases hsign
          decide
        · cases hsign
          decide
      rw [fromUtf8_ascii hascii] at hdecode
      refine ⟨_, _, (Option.some.inj hdecode).symm, ?_, by simpa using hlength, ?_⟩
      · rcases hsign with hsign | hsign
        · cases hsign
          exact Or.inl rfl
        · cases hsign
          exact Or.inr rfl
      · intro c hc
        obtain ⟨y, hy, rfl⟩ := List.mem_map.mp hc
        have hall : ∀ n < 58, 48 ≤ n → (Char.ofNat n).isDigit = true := by decide
        obtain ⟨hlo, hhi⟩ := hdigits y hy
        exact hall _ (Nat.lt_succ_of_le (UInt8.le_iff_toNat_le.mp hhi))
          (UInt8.le_iff_toNat_le.mp hlo)

theorem ne_nil_of_validTz {tz : Str} (h : validTz tz = true) : tz ≠ [] := by
  rintro rfl
  cases h

/-- **The seconds of an offset**, `hhmm`. -/
theorem tzOffset_eq {tz : Str} (h : validTz tz = true) : ∃ n : Nat, n < 10000 ∧
    (tzOffset (toUtf8 tz) = n / 100 * 3600 + n % 100 * 60 ∨
      tzOffset (toUtf8 tz) = -(n / 100 * 3600 + n % 100 * 60)) := by
  obtain ⟨sign, digits, rfl, hsign, hlength, hdigits⟩ := exists_of_validTz h
  have hne : digits ≠ [] := by
    rintro rfl
    cases hlength
  have hvalue : ∀ c : Char, c.isDigit = true → c.toNat - 48 ≤ 9 := by
    intro c hc
    rw [Char.isDigit, Bool.and_eq_true, decide_eq_true_eq, decide_eq_true_eq] at hc
    have hle : c.toNat ≤ 57 := hc.2
    omega
  have hlt : Nat.ofDigitChars 10 digits 0 < 10000 := by
    obtain ⟨a, b, c, d, rfl⟩ := List.length_eq_four.mp hlength
    simp only [List.forall_mem_cons] at hdigits
    have ha := hvalue a hdigits.1
    have hb := hvalue b hdigits.2.1
    have hc := hvalue c hdigits.2.2.1
    have hd := hvalue d hdigits.2.2.2.1
    simp only [Nat.ofDigitChars_cons, Nat.ofDigitChars_nil, Char.reduceToNat]
    omega
  have hparse : parseI64 digits = some (Nat.ofDigitChars 10 digits 0 : Int) := by
    unfold parseI64
    split
    · exact absurd (hdigits '-' List.mem_cons_self) (by decide)
    · exact absurd (hdigits '+' List.mem_cons_self) (by decide)
    · rw [parseDigits_eq hne hdigits, Option.map_some, Option.bind_some,
        if_pos (by constructor <;> simp <;> omega)]
      rfl
  refine ⟨_, hlt, ?_⟩
  rcases hsign with rfl | rfl
  · left
    rw [tzOffset, fromUtf8_toUtf8, Option.getD_some]
    simp only [hparse, Option.getD_some]
    rw [Int.tdiv_eq_ediv_of_nonneg (by omega), Int.tmod_eq_emod_of_nonneg (by omega),
      i64_eq (by unfold Signature.IsI64; omega)]
    omega
  · right
    rw [tzOffset, fromUtf8_toUtf8, Option.getD_some]
    simp only [hparse, Option.getD_some]
    rw [Int.tdiv_eq_ediv_of_nonneg (by omega), Int.tmod_eq_emod_of_nonneg (by omega),
      i64_eq (by unfold Signature.IsI64; omega)]
    omega

theorem dateChar_of_validTz {tz : Str} (h : validTz tz = true) : ∀ c ∈ tz, DateChar c := by
  obtain ⟨sign, digits, rfl, hsign, -, hdigits⟩ := exists_of_validTz h
  refine List.forall_mem_cons.mpr ⟨Or.inr ?_, fun c hc => Or.inl (hdigits c hc)⟩
  rcases hsign with rfl | rfl
  · decide
  · decide

/-- A number with a character that is no digit is not parsed. -/
theorem parseDigits_eq_none {s : Str} {c : Char} (hc : c ∈ s) (hdigit : ¬('0' ≤ c ∧ c ≤ '9')) :
    parseDigits s = none := by
  have hnone : ∀ s : Str, s.foldl (fun acc c => acc.bind fun n =>
      if '0' ≤ c ∧ c ≤ '9' then some (n * 10 + (c.toNat - 48)) else none) none = none := by
    intro s
    induction s with
    | nil => rfl
    | cons d s ih => exact ih
  obtain ⟨front, back, rfl⟩ := List.append_of_mem hc
  rw [parseDigits, if_neg (by simp), List.foldl_append, List.foldl_cons]
  simp only [if_neg hdigit]
  rw [Option.bind_fun_none, hnone]

theorem parseI64_pad2 {n : Nat} (h : n < 100) : parseI64 (pad2 n) = some (n : Int) := by
  have hall : ∀ n < 100, parseI64 (pad2 n) = some (n : Int) := by
    decide
  exact hall n h

/-- The number in front of a date is not one of seconds. -/
theorem parseI64_dateText (y : Int) (mo d : Nat) : parseI64 (dateText y mo d) = none := by
  have hminus : ¬('0' ≤ '-' ∧ '-' ≤ '9') := by decide
  have hfail : ∀ s : Str, '-' ∈ s → (parseDigits s).map Int.ofNat = none := by
    intro s hs
    rw [parseDigits_eq_none hs hminus]
    rfl
  cases y with
  | negSucc n =>
      have htext : dateText (.negSucc n) mo d =
        '-' :: (natStr (n + 1) ++ '-' :: pad2 mo ++ '-' :: pad2 d) := rfl
      rw [htext, parseI64, parseDigits_eq_none (by simp) hminus]
      rfl
  | ofNat n =>
      have hmem : '-' ∈ dateText (.ofNat n) mo d := by simp [dateText]
      obtain ⟨c, r, hnat⟩ := List.exists_cons_of_ne_nil (natStr_ne_nil n)
      have hdigit : c.isDigit = true :=
        isDigit_natStr (n := n) (by rw [hnat]; exact List.mem_cons_self)
      have htext : dateText (.ofNat n) mo d = c :: (r ++ '-' :: pad2 mo ++ '-' :: pad2 d) := by
        have heq : dateText (.ofNat n) mo d = natStr n ++ '-' :: pad2 mo ++ '-' :: pad2 d := rfl
        rw [heq, hnat]
        rfl
      rw [htext] at hmem ⊢
      unfold parseI64
      split
      · rename_i heq
        cases heq
        cases hdigit
      · rename_i heq
        cases heq
        cases hdigit
      · rw [hfail _ hmem]
        rfl

theorem unpadded_text {a b : Str} (ha : ∀ c ∈ a, DateChar c) (hb : ∀ c ∈ b, DateChar c)
    (ha' : a ≠ []) (hb' : b ≠ []) (mid : Str) :
    trim (a ++ mid ++ b) = a ++ mid ++ b := by
  refine trim_eq_self_iff.mpr ⟨fun c hc => ?_, fun c hc => ?_⟩
  · rw [List.append_assoc, List.head?_append_of_ne_nil _ ha'] at hc
    exact (ha c (List.mem_of_head? hc)).plain.1
  · rw [List.getLast?_append_of_ne_nil _ hb'] at hc
    exact (hb c (List.mem_of_getLast? hc)).plain.1

theorem u32_natCast {n : Nat} (h : n < 2 ^ 32) : u32 n = n := by
  rw [u32]
  omega

/-- **A date and time are parsed back** from the year 0 on. -/
theorem parseIso_text {y : Int} {mo d h mi s : Nat} {tz : Str} (htz : validTz tz = true)
    (hy : Signature.IsI64 y) (hmo : mo < 100) (hd : d < 100) (hh : h < 100) (hmi : mi < 100)
    (hs : s < 100) :
    parseIso (dateText y mo d ++ ' ' :: (timeText h mi s ++ ' ' :: tz)) = if 0 ≤ y then
      some (i64 (i64 (daysFromCivil y mo d * 86400 + h * 3600 + mi * 60 + s) - tzOffset
        (toUtf8 tz)), toUtf8 tz)
    else none := by
  have hmark : ∀ c ∈ dateText y mo d, (!(c == 'T' || c == ' ')) = true := by
    intro c hc
    obtain ⟨-, hT, hspace, -⟩ := (dateChar_dateText c hc).plain
    simp [hT, hspace]
  have htime_ne : timeText h mi s ≠ [] := by
    rw [timeText, List.append_assoc]
    exact List.append_ne_nil_of_left_ne_nil (pad2_ne_nil h) _
  have hrest : trim (timeText h mi s ++ ' ' :: tz) = timeText h mi s ++ ' ' :: tz := by
    have hsplit : timeText h mi s ++ ' ' :: tz = timeText h mi s ++ [' '] ++ tz := by simp
    rw [hsplit]
    exact unpadded_text dateChar_timeText (dateChar_of_validTz htz) htime_ne
      (ne_nil_of_validTz htz) [' ']
  have htrim : trim tz = tz := trim_of_not_whitespace fun c hc =>
    (dateChar_of_validTz htz c hc).plain.1
  have honce : splitOnce ' ' (timeText h mi s ++ ' ' :: tz) = some (timeText h mi s, tz) :=
    splitOnce_eq_some.mpr ⟨rfl, fun hmem => (dateChar_timeText _ hmem).plain.2.2.1 rfl⟩
  have hZ : tz ≠ str "Z" := by
    rintro rfl
    revert htz
    decide
  have hbehind : (dateText y mo d ++ ' ' :: (timeText h mi s ++ ' ' :: tz)).dropWhile (fun c =>
    !(c == 'T' || c == ' ')) =
      ' ' :: (timeText h mi s ++ ' ' :: tz) := List.dropWhile_append_of_pos hmark
  have hbefore : (dateText y mo d ++ ' ' :: (timeText h mi s ++ ' ' :: tz)).takeWhile (fun c =>
    !(c == 'T' || c == ' ')) =
      dateText y mo d := (List.takeWhile_append_of_pos hmark).trans (List.append_nil _)
  rw [parseIso]
  simp only [hbehind, hbefore, hrest, honce, htrim, if_neg hZ, htz, splitOn_timeText,
    List.map_cons, List.map_nil]
  rw [parseI64_pad2 hh, parseI64_pad2 hmi, parseI64_pad2 hs]
  cases y with
  | ofNat n =>
      have hnonneg : 0 ≤ Int.ofNat n := Int.natCast_nonneg n
      have hdates : (dateText (.ofNat n) mo d).splitOn '-' = [natStr n, pad2 mo, pad2 d] :=
        splitOn_dateText n mo d
      rw [hdates, List.map_cons, List.map_cons, List.map_cons, List.map_nil,
        Signature.parseI64_natStr hy, parseI64_pad2 hmo,
        parseI64_pad2 hd, if_pos hnonneg]
      show some (i64 (i64 (daysFromCivil n (u32 mo) (u32 d) * 86400 + h * 3600 + mi * 60 + s) - _),
        _) = _
      rw [u32_natCast (by omega), u32_natCast (by omega)]
      rfl
  | negSucc n =>
      have hdates : (dateText (.negSucc n) mo d).splitOn '-' =
          [] :: (natStr (n + 1) ++ '-' :: (pad2 mo ++ '-' :: pad2 d)).splitOn '-' := by
        have htext : dateText (.negSucc n) mo d =
            [] ++ '-' :: (natStr (n + 1) ++ '-' :: (pad2 mo ++ '-' :: pad2 d)) := by
          simp [dateText, intStr]
        rw [htext, List.splitOn_append_cons_self_of_not_mem List.not_mem_nil]
      rw [hdates, if_neg (Int.negSucc_not_nonneg n).mp]
      rfl

/-- The text of a date and time is not of seconds. -/
theorem parseDate_text {y : Int} {mo d h mi s : Nat} {tz : Str} (htz : validTz tz = true) :
    parseDate (dateText y mo d ++ ' ' :: (timeText h mi s ++ ' ' :: tz)) =
      parseIso (dateText y mo d ++ ' ' :: (timeText h mi s ++ ' ' :: tz)) := by
  have hdate_ne : dateText y mo d ≠ [] := by
    rw [dateText, List.append_assoc]
    exact List.append_ne_nil_of_right_ne_nil _ (List.cons_ne_nil _ _)
  have htrim : trim (dateText y mo d ++ ' ' :: (timeText h mi s ++ ' ' :: tz)) =
      dateText y mo d ++ ' ' :: (timeText h mi s ++ ' ' :: tz) := by
    have hsplit : dateText y mo d ++ ' ' :: (timeText h mi s ++ ' ' :: tz) =
        dateText y mo d ++ (' ' :: timeText h mi s ++ [' ']) ++ tz := by simp
    rw [hsplit]
    exact unpadded_text dateChar_dateText (dateChar_of_validTz htz) hdate_ne
      (ne_nil_of_validTz htz) _
  have hat : stripPrefix? ['@'] (dateText y mo d ++ ' ' :: (timeText h mi s ++ ' ' :: tz)) =
      none := by
    obtain ⟨c, r, htext⟩ := List.exists_cons_of_ne_nil hdate_ne
    have hc : '@' ≠ c := (dateChar_dateText c (htext ▸ List.mem_cons_self)).plain.2.2.2.symm
    rw [htext, List.cons_append, stripPrefix?, if_neg hc]
  obtain ⟨parts, hparts⟩ : ∃ parts, splitWhitespace
    (dateText y mo d ++ ' ' :: (timeText h mi s ++ ' ' :: tz)) =
      dateText y mo d :: parts := by
    rw [splitWhitespace, List.splitOnP_append_cons_of_forall_mem (fun c hc =>
      (dateChar_dateText c hc).plain.1) ' ' (by decide),
      List.filter_cons_of_pos (by simpa using hdate_ne)]
    exact ⟨_, rfl⟩
  rw [parseDate]
  simp only [htrim, hat, Option.getD_none, hparts, parseI64_dateText]

/-! ## A time in a time zone -/

theorem isI64_i64 (n : Int) : Signature.IsI64 (i64 n) := by
  rw [i64, Int.bmod_def]
  unfold Signature.IsI64
  split <;> omega

/-- A sum that wraps around is undone. -/
theorem i64_sub_cancel {n : Int} (h : Signature.IsI64 n) (k : Int) : i64 (i64 (n + k) - k) = n := by
  obtain ⟨hlo, hhi⟩ := h
  rw [i64, i64, Int.bmod_def, Int.bmod_def]
  split <;> split <;> omega

/-- The fields of a time are those of the date of its day. -/
theorem localFields_spec {time : Int} {tz : Bytes} {D : Date}
    (hD : D.dayNumber = i64 (time + tzOffset tz) / 86400 + 719468) :
    ∃ h mi s w : Nat, localFields time tz = ⟨D.year, D.month, D.day, h, mi, s, w⟩ ∧ h < 24 ∧
      mi < 60 ∧ s < 60 ∧
      (h : Int) * 3600 + mi * 60 + s = i64 (time + tzOffset tz) % 86400 := by
  obtain ⟨hlo, hhi⟩ := isI64_i64 (time + tzOffset tz)
  have hdate : civilFromDays (i64 (time + tzOffset tz) / 86400) = (D.year, D.month, D.day) := by
    rw [← civilFromDays_eq (D := D) (by omega), hD, Int.add_sub_cancel]
  rw [localFields]
  simp only [hdate]
  refine ⟨_, _, _, _, rfl, ?_⟩
  unfold u32
  omega

/-- **A stamp that is shown is parsed back** if the year that is shown is not negative, and
otherwise not at all. -/
theorem parseDate_fmtDateIso {sig : Signature} (htime : Signature.IsI64 sig.time) {tz : Str}
    (htz : validTz tz = true) (hsig : toUtf8 tz = sig.tz) {D : Date}
    (hD : D.dayNumber = i64 (sig.time + tzOffset sig.tz) / 86400 + 719468) :
    parseDate (fmtDateIso sig) = if 0 ≤ D.year then some (sig.time, sig.tz) else none := by
  obtain ⟨h, mi, s, w, hfields, hh, hmi, hs, hsecs⟩ := localFields_spec hD
  obtain ⟨hlo, hhi⟩ := isI64_i64 (sig.time + tzOffset sig.tz)
  have hyear := year_range (D := D) (by omega)
  have hmonth := D.month_range
  have hday := D.day_range.2.trans (monthLength_le _ _)
  have hlocal : i64 (daysFromCivil D.year D.month D.day * 86400 + h * 3600 + mi * 60 + s) =
      i64 (sig.time + tzOffset sig.tz) := by
    rw [daysFromCivil_eq hyear, hD]
    have hsum : (i64 (sig.time + tzOffset sig.tz) / 86400 + 719468 - 719468) * 86400 +
      h * 3600 + mi * 60 + s =
        i64 (sig.time + tzOffset sig.tz) := by omega
    rw [hsum, i64_eq ⟨hlo, hhi⟩]
  rw [fmtDateIso_eq hsig, hfields]
  simp only
  rw [parseDate_text htz, parseIso_text htz (by unfold Signature.IsI64; omega) (by omega) (by omega)
    (by omega) (by omega) (by omega),
    hlocal, hsig, i64_sub_cancel htime]

/-- The day from which seconds are counted. -/
def epoch : Date := ⟨1970, 1, 1, Calendar.january_range, by decide⟩

theorem dayNumber_epoch : epoch.dayNumber = 719468 := by decide

/-- The date of a stamp in its time zone. -/
def Signature.LocalDate (sig : Signature) (L : Date) : Prop :=
  L.dayNumber = epoch.dayNumber + (sig.time + tzOffset sig.tz) / 86400

/-- The year 0 begins shortly before the first day. -/
theorem year_nonneg {D : Date} : (0 ≤ D.year → -1000 ≤ D.dayNumber) ∧
    (0 ≤ D.dayNumber → 0 ≤ D.year) := by
  have hday := marchDay_range D
  have hmarch := marchYear_eq D
  have hnumber : D.dayNumber = Date.yearStart D.marchYear + D.marchDay := rfl
  rw [Date.yearStart] at hnumber
  split at hmarch <;> omega

/-- A stamp from the year 0 on is parsed back just if its local time is an `i64`. -/
theorem parseDate_iff {sig : Signature} (htime : Signature.IsI64 sig.time) {tz : Str}
    (htz : validTz tz = true) (hsig : toUtf8 tz = sig.tz) {L : Date} (hL : sig.LocalDate L)
    (hyear : 0 ≤ L.year) :
    parseDate (fmtDateIso sig) = some (sig.time, sig.tz) ↔ sig.time + tzOffset sig.tz < 2 ^ 63 := by
  obtain ⟨hlo, hhi⟩ := htime
  rw [Signature.LocalDate, dayNumber_epoch] at hL
  have hoffset : -362340 ≤ tzOffset sig.tz ∧ tzOffset sig.tz ≤ 362340 := by
    obtain ⟨n, hn, hoffset⟩ := tzOffset_eq htz
    rw [← hsig]
    omega
  constructor
  · intro h
    by_contra hlarge
    -- the sum wraps around to a time long before the year 0
    have hwrap : i64 (sig.time + tzOffset sig.tz) = sig.time + tzOffset sig.tz - 2 ^ 64 := by
      rw [i64, Int.bmod_def]
      split <;> omega
    obtain ⟨D, hD⟩ := Date.exists_dayNumber (i64 (sig.time + tzOffset sig.tz) / 86400 + 719468)
    have hneg : ¬0 ≤ D.year := fun hy => absurd (year_nonneg.1 hy) (by omega)
    rw [parseDate_fmtDateIso ⟨hlo, hhi⟩ htz hsig hD, if_neg hneg] at h
    cases h
  · intro h
    have hlow := year_nonneg.1 hyear
    have hsum : i64 (sig.time + tzOffset sig.tz) = sig.time + tzOffset sig.tz :=
      i64_eq (by unfold Signature.IsI64; omega)
    rw [parseDate_fmtDateIso ⟨hlo, hhi⟩ htz hsig (D := L) (by omega), if_pos hyear]

/-- The dates of days that are not too far off are those of the calendar. -/
theorem civilFromDays_spec {z : Int} (h : -2 ^ 40 < z ∧ z < 2 ^ 40) : ∃ D : Date,
    civilFromDays z = (D.year, D.month, D.day) ∧ daysFromCivil D.year D.month D.day = z ∧
      civilFromDays (z + 1) = (D.next.year, D.next.month, D.next.day) := by
  obtain ⟨D, hD⟩ := Date.exists_dayNumber (z + 719468)
  have hnext := Date.dayNumber_next D
  refine ⟨D, ?_, ?_, ?_⟩
  · rw [← civilFromDays_eq (D := D) (by omega), hD, Int.add_sub_cancel]
  · rw [daysFromCivil_eq (year_range (by omega)), hD, Int.add_sub_cancel]
  · rw [← civilFromDays_eq (D := D.next) (by omega), hnext, hD]
    congr 1
    omega

/-- **Days have the dates of the calendar**, and consecutive days consecutive dates; and a stamp
that is shown, from the year 0 on, is parsed back exactly when its local time is an `i64`. -/
theorem dates_spec (z : Int) (hz : -2 ^ 40 < z ∧ z < 2 ^ 40) (sig : Signature)
    (htime : Signature.IsI64 sig.time) (htz : ∃ tz, validTz tz = true ∧ toUtf8 tz = sig.tz)
    (L : Date) (hL : sig.LocalDate L) (hyear : 0 ≤ L.year) :
    (∃ D : Date, civilFromDays z = (D.year, D.month, D.day) ∧
      daysFromCivil D.year D.month D.day = z ∧
      civilFromDays (z + 1) = (D.next.year, D.next.month, D.next.day)) ∧
    (parseDate (fmtDateIso sig) = some (sig.time, sig.tz) ↔
      sig.time + tzOffset sig.tz < 2 ^ 63) := by
  obtain ⟨tz, htz, hsig⟩ := htz
  exact ⟨civilFromDays_spec hz, parseDate_iff htime htz hsig hL hyear⟩

/-- A leap day. -/
def leapDay : Date := ⟨2024, 2, 29, by decide, by decide⟩

/-- A stamp of the evening before the leap day in Greenwich, five and a half hours east of it. -/
def leapStamp : Signature := ⟨bytes "A", bytes "a@b", 19782 * 86400 - 10000, bytes "+0530"⟩

/-- Behind the leap day is the first of March; the stamp is one of the leap day, and is parsed
back. -/
theorem dates_spec_leapDay : leapStamp.LocalDate leapDay ∧
    (∃ D : Date, civilFromDays 19782 = (D.year, D.month, D.day) ∧
      daysFromCivil D.year D.month D.day = 19782 ∧
      civilFromDays (19782 + 1) = (D.next.year, D.next.month, D.next.day)) ∧
    leapStamp.time + tzOffset leapStamp.tz < 2 ^ 63 ∧
    parseDate (fmtDateIso leapStamp) = some (leapStamp.time, leapStamp.tz) := by
  have hoffset : tzOffset leapStamp.tz = 19800 := by decide
  have htime : leapStamp.time = 19782 * 86400 - 10000 := rfl
  have hlocal : leapStamp.LocalDate leapDay := by
    have hday : leapDay.dayNumber = 719468 + 19782 := by decide
    rw [Signature.LocalDate, hoffset, htime, dayNumber_epoch, hday]
    rfl
  have hbound : leapStamp.time + tzOffset leapStamp.tz < 2 ^ 63 := by
    rw [hoffset, htime]
    decide
  obtain ⟨hdays, hparse⟩ := dates_spec 19782 (by decide) leapStamp (by decide)
    ⟨str "+0530", by decide, rfl⟩ leapDay hlocal (by decide)
  exact ⟨hlocal, hdays, hbound, hparse.mpr hbound⟩

/-- The last second that a stamp can have, an hour east of Greenwich. -/
def lastStamp : Signature := ⟨bytes "A", bytes "a@b", 9223372036854775807, bytes "+0100"⟩

/-- **A stamp may be shown as of long before the year 0** instead, and is not parsed. -/
theorem not_parseDate : ¬∀ (sig : Signature) (L : Date), Signature.IsI64 sig.time →
    (∃ tz, validTz tz = true ∧ toUtf8 tz = sig.tz) → sig.LocalDate L → 0 ≤ L.year →
    parseDate (fmtDateIso sig) = some (sig.time, sig.tz) := by
  intro h
  have hoffset : tzOffset lastStamp.tz = 3600 := by decide
  obtain ⟨L, hL⟩ :=
    Date.exists_dayNumber (epoch.dayNumber + (lastStamp.time + tzOffset lastStamp.tz) / 86400)
  have htime : lastStamp.time = 9223372036854775807 := rfl
  have hyear : 0 ≤ L.year := by
    rw [hoffset, htime, dayNumber_epoch] at hL
    exact year_nonneg.2 (by omega)
  have hparse := h lastStamp L (by decide) ⟨str "+0100", by decide, rfl⟩ hL hyear
  have htz : validTz (str "+0100") = true := by decide
  have hbound := (parseDate_iff (by decide) htz rfl hL hyear).mp hparse
  rw [hoffset, htime] at hbound
  exact absurd hbound (by decide)

end Puregit
