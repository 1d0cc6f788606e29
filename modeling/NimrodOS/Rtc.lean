import NimrodOS.Lib.Wire
import NimrodOS.Shell
import NimrodOS.VgaColors

/-! The clock: `rtc_read` of `drivers/rtc.c`, and `cmd_date` of `shell/shell.c` that prints what
it reads. -/
namespace NimrodOS.Rtc

open Wire
open Shell (text)
open Vga (Call printDec)

structure RtcTime where
  second : Byte
  minute : Byte
  hour : Byte
  day : Byte
  month : Byte
  year : Half
  weekday : Byte

/-- What the chip has in its registers while it is read. -/
abbrev Cmos := Byte → Byte

def cmosUpdating (cmos : Cmos) : Prop := cmos 0x0A &&& 0x80 ≠ 0

instance (cmos : Cmos) : Decidable (cmosUpdating cmos) := inferInstanceAs (Decidable (_ ≠ _))

def bcdToBin (bcd : Byte) : Byte := (bcd >>> 4) * 10 + (bcd &&& 0x0F)

/-- The fields as they are read. -/
def rawTime (cmos : Cmos) : RtcTime where
  second := cmos 0x00
  minute := cmos 0x02
  hour := cmos 0x04
  weekday := cmos 0x06
  day := cmos 0x07
  month := cmos 0x08
  year := (cmos 0x09).setWidth 16

def fromBcd (t : RtcTime) : RtcTime :=
  {t with
    second := bcdToBin t.second
    minute := bcdToBin t.minute
    hour := bcdToBin (t.hour &&& 0x7F) ||| (t.hour &&& 0x80)
    day := bcdToBin t.day
    month := bcdToBin t.month
    year := (bcdToBin (t.year.setWidth 8)).setWidth 16}

/-- There is no time while an update is waited for. -/
def rtcRead (cmos : Cmos) : Option RtcTime :=
  if cmosUpdating cmos then none
  else
    let t := rawTime cmos
    let statusB := cmos 0x0B
    let t := if statusB &&& 0x04 = 0 then fromBcd t else t
    let t := if statusB &&& 0x02 = 0 ∧ t.hour &&& 0x80 ≠ 0 then
      {t with hour := ((t.hour &&& 0x7F) + 12) % 24} else t
    some {t with year := t.year + 2000}

def weekdayNames : List (List Byte) :=
  ["Sunday","Monday","Tuesday","Wednesday","Thursday","Friday","Saturday"].map text

def monthNames : List (List Byte) :=
  ["","January","February","March","April","May","June","July","August","September","October",
    "November","December"].map text

/-- The calls that `cmd_date` makes for a time. -/
def dateCalls (t : RtcTime) : List Call :=
  [.setColor 15 0,.print (text "  ")] ++
  (if t.weekday < 7 then [.print (weekdayNames.getD t.weekday.toNat []),.print (text ", ")] else []) ++
  (if 1 ≤ t.month ∧ t.month ≤ 12 then [.print (monthNames.getD t.month.toNat []),.print (text " ")]
    else []) ++
  printDec (t.day.setWidth 32) ++ [.print (text ", ")] ++ printDec (t.year.setWidth 32) ++
  [.print (text "\n"),.setColor 10 0]

def cmdDate (cmos : Cmos) : Option (List Call) := (rtcRead cmos).map dateCalls

/-! How the chip holds a time. -/

/-- A time of this century; the days of the week are counted from Sunday. -/
structure DateTime where
  second : Fin 60
  minute : Fin 60
  hour : Fin 24
  weekday : Fin 7
  day : Nat
  month : Nat
  year : Nat
  day_range : 1 ≤ day ∧ day ≤ 31
  month_range : 1 ≤ month ∧ month ≤ 12
  year_range : 2000 ≤ year ∧ year ≤ 2099

/-- A number below 100, in binary or with four bits for each digit. -/
def encode (binary : Bool) (n : Nat) : Byte := BitVec.ofNat 8 (if binary then n else n / 10 * 16 + n % 10)

/-- The hours from 1 to 12 have a flag for the afternoon. -/
def encodeHour (binary twentyFour : Bool) (hour : Nat) : Byte :=
  if twentyFour then encode binary hour
  else encode binary (if hour % 12 = 0 then 12 else hour % 12) ||| if 12 ≤ hour then 0x80 else 0

def isBinary (cmos : Cmos) : Bool := cmos 0x0B &&& 0x04 ≠ 0

def isTwentyFour (cmos : Cmos) : Bool := cmos 0x0B &&& 0x02 ≠ 0

/-- The registers show the time in the format that status register B selects. -/
structure Shows (cmos : Cmos) (d : DateTime) : Prop where
  still : ¬cmosUpdating cmos
  second : cmos 0x00 = encode (isBinary cmos) d.second
  minute : cmos 0x02 = encode (isBinary cmos) d.minute
  hour : cmos 0x04 = encodeHour (isBinary cmos) (isTwentyFour cmos) d.hour
  weekday : cmos 0x06 = encode (isBinary cmos) (d.weekday + 1)
  day : cmos 0x07 = encode (isBinary cmos) d.day
  month : cmos 0x08 = encode (isBinary cmos) d.month
  year : cmos 0x09 = encode (isBinary cmos) (d.year - 2000)

/-- All but the day of the week. -/
structure Same (t : RtcTime) (d : DateTime) : Prop where
  second : t.second.toNat = d.second
  minute : t.minute.toNat = d.minute
  hour : t.hour.toNat = d.hour
  day : t.day.toNat = d.day
  month : t.month.toNat = d.month
  year : t.year.toNat = d.year

def Inverts (cmos : Cmos) (d : DateTime) : Prop := ∃ t, rtcRead cmos = some t ∧ Same t d

/-- The day of the week is printed. -/
def NamesWeekday (cmos : Cmos) (d : DateTime) : Prop :=
  ∃ out, cmdDate cmos = some out ∧ .print (weekdayNames.getD d.weekday []) ∈ out

variable {cmos : Cmos} {d : DateTime} {t : RtcTime}

/-! The fields. -/

/-- Both formats of a number are read as the number. -/
theorem bcdToBin_encode : ∀ n < 100, bcdToBin (encode false n) = encode true n := by
  decide

theorem encode_toNat {n : Nat} (small : n < 100) : (encode true n).toNat = n := by
  change n % 256 = n
  omega

/-- The field that `rtc_read` makes of a register. -/
def decode (binary : Bool) (b : Byte) : Byte := if binary then b else bcdToBin b

theorem decode_encode (binary : Bool) {n : Nat} (small : n < 100) :
    (decode binary (encode binary n)).toNat = n := by
  cases binary with
  | true => exact encode_toNat small
  | false =>
    rw [decode,if_neg Bool.false_ne_true,bcdToBin_encode n small]
    exact encode_toNat small

def decodeHour (binary twentyFour : Bool) (b : Byte) : Byte :=
  let hour := if binary then b else bcdToBin (b &&& 0x7F) ||| (b &&& 0x80)
  if twentyFour = false ∧ hour &&& 0x80 ≠ 0 then ((hour &&& 0x7F) + 12) % 24 else hour

/-- With 12 hours to a half, both twelves are read as the other half's. -/
theorem decodeHour_encodeHour : ∀ (binary twentyFour : Bool) (hour : Fin 24),
    (decodeHour binary twentyFour (encodeHour binary twentyFour hour)).toNat =
      if twentyFour = false ∧ hour.val % 12 = 0 then 12 - hour.val else hour.val := by
  decide

/-- What a read gives, field by field. -/
theorem rtcRead_eq (still : ¬cmosUpdating cmos) : rtcRead cmos = some
    { second := decode (isBinary cmos) (cmos 0x00)
      minute := decode (isBinary cmos) (cmos 0x02)
      hour := decodeHour (isBinary cmos) (isTwentyFour cmos) (cmos 0x04)
      day := decode (isBinary cmos) (cmos 0x07)
      month := decode (isBinary cmos) (cmos 0x08)
      year := (decode (isBinary cmos) (cmos 0x09)).setWidth 16 + 2000
      weekday := cmos 0x06 } := by
  have narrowed : ((cmos 0x09).setWidth 16).setWidth 8 = cmos 0x09 := by
    rw [BitVec.setWidth_setWidth_of_le _ (by decide),BitVec.setWidth_eq]
  have bcd : cmos 0x0B &&& 0x04 = 0 ↔ isBinary cmos = false := by
    rw [isBinary,decide_eq_false_iff_not,not_not]
  have halves : cmos 0x0B &&& 0x02 = 0 ↔ isTwentyFour cmos = false := by
    rw [isTwentyFour,decide_eq_false_iff_not,not_not]
  rw [rtcRead,if_neg still]
  simp only [bcd,halves]
  unfold decodeHour decode
  cases isBinary cmos with
  | true =>
    cases isTwentyFour cmos with
    | true => rfl
    | false =>
      have hour : (rawTime cmos).hour = cmos 0x04 := rfl
      simp only [if_true,Bool.true_eq_false,if_false,true_and,hour]
      split_ifs with afternoon
      · rfl
      · rfl
  | false =>
    have year : (fromBcd (rawTime cmos)).year = (bcdToBin (cmos 0x09)).setWidth 16 :=
      congrArg (fun b => (bcdToBin b).setWidth 16) narrowed
    cases isTwentyFour cmos with
    | true => simp [fromBcd,rawTime]
    | false =>
      have hour : (fromBcd (rawTime cmos)).hour =
        bcdToBin (cmos 0x04 &&& 0x7F) ||| (cmos 0x04 &&& 0x80) := rfl
      simp only [Bool.false_eq_true,if_true,if_false,true_and,hour]
      split_ifs with afternoon
      · simp only [year]
        rfl
      · simp only [year]
        rfl

theorem Shows.read (shows : Shows cmos d) : ∃ t, rtcRead cmos = some t ∧
    t.second.toNat = d.second ∧ t.minute.toNat = d.minute ∧ t.day.toNat = d.day ∧
    t.month.toNat = d.month ∧ t.year.toNat = d.year ∧ t.weekday.toNat = d.weekday + 1 ∧
    t.hour.toNat = if isTwentyFour cmos = false ∧ d.hour.val % 12 = 0 then 12 - d.hour.val
      else d.hour.val := by
  have seconds := d.second.isLt
  have minutes := d.minute.isLt
  have weekdays := d.weekday.isLt
  have days := d.day_range
  have months := d.month_range
  have years := d.year_range
  refine ⟨_,rtcRead_eq shows.still,?_,?_,?_,?_,?_,?_,?_⟩
  · rw [shows.second,decode_encode _ (by omega)]
  · rw [shows.minute,decode_encode _ (by omega)]
  · rw [shows.day,decode_encode _ (by omega)]
  · rw [shows.month,decode_encode _ (by omega)]
  · have low := decode_encode (isBinary cmos) (n := d.year - 2000) (by omega)
    rw [shows.year,BitVec.toNat_add,BitVec.toNat_setWidth,low]
    change ((d.year - 2000) % 65536 + 2000) % 65536 = d.year
    omega
  · rw [shows.weekday]
    have same : ∀ (binary : Bool) (w : Fin 7), (encode binary (w + 1)).toNat = w.val + 1 := by decide
    exact same _ _
  · rw [shows.hour,decodeHour_encodeHour]

/-! What is printed. -/

theorem not_mem_printDec (str : List Byte) (v : Word) : .print str ∉ printDec v := by
  unfold printDec
  split_ifs
  · simp
  · simp

/-- All that is printed but the numbers. -/
theorem mem_dateCalls {str : List Byte} (member : .print str ∈ dateCalls t) :
    str ∈ [text "  ",text ", ",text " ",text "\n"] ∨ str ∈ monthNames ∨
      t.weekday < 7 ∧ str = weekdayNames.getD t.weekday.toNat [] := by
  simp only [dateCalls,List.mem_append,List.mem_cons,List.not_mem_nil,or_false,reduceCtorEq,
    false_or,not_mem_printDec,Call.print.injEq] at member
  rcases member with (((rfl | weekday) | month) | rfl) | rfl
  · simp
  · split_ifs at weekday with known
    · simp only [List.mem_cons,Call.print.injEq,List.not_mem_nil,or_false] at weekday
      rcases weekday with rfl | rfl
      · exact .inr (.inr ⟨known,rfl⟩)
      · simp
    · cases weekday
  · split_ifs at month with known
    · simp only [List.mem_cons,Call.print.injEq,List.not_mem_nil,or_false] at month
      rcases month with rfl | rfl
      · have inside : t.month.toNat < monthNames.length := by
          change t.month.toNat < 13
          bv_omega
        rw [List.getD_eq_getElem _ _ inside]
        exact .inr (.inl (List.getElem_mem inside))
      · simp
    · cases month
  · simp
  · simp

/-- The name is that of the day after, and none on a Saturday. -/
theorem not_namesWeekday (shows : Shows cmos d) : ¬NamesWeekday cmos d := by
  rintro ⟨out,printed,member⟩
  obtain ⟨t,read,-,-,-,-,-,weekday,-⟩ := shows.read
  rw [cmdDate,read,Option.map_some,Option.some.injEq] at printed
  subst printed
  have others : ∀ w : Fin 7, weekdayNames.getD w [] ∉ [text "  ",text ", ",text " ",text "\n"] ∧
      weekdayNames.getD w [] ∉ monthNames ∧ ∀ v : Fin 7, v.val = w + 1 →
        weekdayNames.getD w [] ≠ weekdayNames.getD v [] := by decide
  obtain ⟨signs,months,next⟩ := others d.weekday
  rcases mem_dateCalls member with sign | month | ⟨known,name⟩
  · exact signs sign
  · exact months month
  · have small : t.weekday.toNat < 7 := BitVec.lt_def.mp known
    exact next ⟨t.weekday.toNat,small⟩ weekday name

theorem inverts_iff (shows : Shows cmos d) :
    Inverts cmos d ↔ isTwentyFour cmos = true ∨ d.hour.val ≠ 0 ∧ d.hour.val ≠ 12 := by
  obtain ⟨t,read,second,minute,day,month,year,-,hour⟩ := shows.read
  have early := d.hour.isLt
  constructor
  · rintro ⟨t',read',same⟩
    obtain rfl := Option.some.inj (read.symm.trans read')
    rw [same.hour] at hour
    cases halves : isTwentyFour cmos with
    | true => exact .inl rfl
    | false =>
      simp only [halves,true_and] at hour
      split_ifs at hour with twelve
      · omega
      · exact .inr (by omega)
  · intro condition
    refine ⟨t,read,second,minute,?_,day,month,year⟩
    rw [hour,if_neg]
    rintro ⟨halves,twelve⟩
    rw [halves] at condition
    simp only [Bool.false_eq_true,false_or] at condition
    omega

/-- The day of the week is never named. The other fields are right but for the hours that begin
at noon and at midnight, where the chip counts them from 1 to 12. -/
theorem rtc_never_named (shows : Shows cmos d) : ¬(Inverts cmos d ∧ NamesWeekday cmos d) ∧
    (Inverts cmos d ↔ isTwentyFour cmos = true ∨ d.hour.val ≠ 0 ∧ d.hour.val ≠ 12) :=
  ⟨fun both => not_namesWeekday shows both.2,inverts_iff shows⟩

/-- Wednesday, 1 January 2025, 00:30:00. -/
def newYear : DateTime where
  second := 0
  minute := 30
  hour := 0
  weekday := 3
  day := 1
  month := 1
  year := 2025
  day_range := by decide
  month_range := by decide
  year_range := by decide

/-- In binary-coded decimals, at 12:30 AM. -/
def newYearCmos : Cmos := fun reg =>
  if reg = 0x02 then 0x30 else if reg = 0x04 then 0x12 else if reg = 0x06 then 4
  else if reg = 0x07 then 1 else if reg = 0x08 then 1 else if reg = 0x09 then 0x25 else 0

theorem newYear_shows : Shows newYearCmos newYear := by
  constructor <;> decide

theorem rtc_never_named_newYear : Shows newYearCmos newYear ∧
    ¬(Inverts newYearCmos newYear ∧ NamesWeekday newYearCmos newYear) :=
  ⟨newYear_shows,(rtc_never_named newYear_shows).1⟩

/-- Half past midnight is read as half past noon, on a day that is called Thursday. -/
theorem rtc_newYear_wrong :
    ¬∀ cmos d, Shows cmos d → Inverts cmos d ∧ NamesWeekday cmos d := by
  intro right
  obtain ⟨⟨t,read,same⟩,-⟩ := right newYearCmos newYear newYear_shows
  have hour : (rtcRead newYearCmos).map (fun t => t.hour.toNat) = some 12 := by decide
  rw [read,Option.map_some,same.hour] at hour
  exact absurd hour (by decide)

end NimrodOS.Rtc
