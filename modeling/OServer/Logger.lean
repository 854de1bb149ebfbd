/-
  OServer/Logger.lean
  ===================
  **Log records (`logger.c`).**

  A record is a stamp and a message in a buffer of 1024 bytes.  `vsnprintf` returns the
  length of the message, also where only a part of it was stored, and that length is added to
  the one that `write` is called with:

    * `loggerLog_whole`   — a message that fits is written, and nothing else;
    * `loggerLog_bounded` — when the length stays inside of what was stored.
-/
import OServer.Lib.Buf
import OServer.Lib.Decimal
import Mathlib.Algebra.Ring.Int.Defs

namespace OServer

open CString

/-! ## 1. Model -/

/-- `log_level_t`. -/
inductive LogLevel where
  | debug | info | error | fatal
deriving DecidableEq, Repr

def LogLevel.value : LogLevel → Nat
  | debug => 0
  | info => 1
  | error => 2
  | fatal => 3

/-- `output_fd` and `log_level`. -/
structure Logger where
  outputFd : Int
  logLevel : LogLevel
deriving DecidableEq, Repr

/-- The two variables as they are without a call of `logger_init`; `debug` stands for
    `O_SERVER_DEBUG`. -/
def loggerStart (debug : Bool) : Logger := ⟨1, if debug then .debug else .info⟩

/-- `struct tm` and the microseconds of `struct timeval`. -/
structure LogTime where
  tmYear : Int32
  tmMon : Int32
  tmMday : Int32
  tmHour : Int32
  tmMin : Int32
  tmSec : Int32
  tvUsec : Int64
deriving DecidableEq, Repr

/-- The text of `"%4d/%02d/%02d %02d:%02d:%02d.%03ld : "`. -/
def logStamp (time : LogTime) : List UInt8 :=
  blankPadded 4 (bytes (toString (time.tmYear.toInt + 1900))) ++
    bytes "/" ++ zeroPadded 2 time.tmMon.toInt ++
    bytes "/" ++ zeroPadded 2 time.tmMday.toInt ++
    bytes " " ++ zeroPadded 2 time.tmHour.toInt ++
    bytes ":" ++ zeroPadded 2 time.tmMin.toInt ++
    bytes ":" ++ zeroPadded 2 time.tmSec.toInt ++
    bytes "." ++ zeroPadded 3 (time.tvUsec.toInt.tdiv 1000) ++ bytes " : "

/-- What `vsnprintf` returns, which is an `int`. -/
def vsnprintfRet (msg : List UInt8) : Int :=
  if msg.length < 2 ^ 31 then msg.length else -1

/-- The buffer and the length that `write` is called with.  `formatted` counts the bytes of
    text that were stored in the buffer, without terminators. -/
structure LogRecord where
  buffer : Buf UInt8 1024
  formatted : Nat
  len : Int
deriving DecidableEq, Repr

/-- `logger_log`, where `vsnprintf` makes `msg` of the format and its arguments: the record
    that is written, if one is.  `none` where a byte outside of the buffer is written, or
    where the sum of the two lengths is no `int`. -/
def loggerLog (lg : Logger) (buffer : Buf UInt8 1024) (level : LogLevel) (time : LogTime)
    (msg : List UInt8) : Option (Option LogRecord) :=
  if 0 ≤ lg.outputFd ∧ lg.logLevel.value ≤ level.value then do
    let stamp := logStamp time
    let buffer ← buffer.store 0 (stamp ++ [NUL])
    let room := 1024 - stamp.length
    let buffer ← buffer.store stamp.length (snprintfBytes room msg)
    let len := stamp.length + vsnprintfRet msg
    if len < 2 ^ 31 then
      some (some ⟨buffer, stamp.length + (msg.take (room - 1)).length, len⟩)
    else none
  else some none

/-- The message of the macro `l_og` in the file and line where it stands. -/
def lOg (file : List UInt8) (line : Nat) (text : List UInt8) : List UInt8 :=
  blankPadded 15 file ++ bytes ": line " ++ leftJustified 3 (bytes (toString line)) ++
    bytes " -- " ++ text

theorem lOg_length (file : List UInt8) (line : Nat) (text : List UInt8) :
    (lOg file line text).length =
      max 15 file.length + max 3 (bytes (toString line)).length + text.length + 11 := by
  have hline : (leftJustified 3 (bytes (toString line))).length =
      max 3 (bytes (toString line)).length := leftJustified_length _ _
  have hword : (bytes ": line ").length = 7 ∧ (bytes " -- ").length = 4 := by decide
  simp only [lOg, List.length_append, blankPadded_length, hline, hword]
  omega

/-! ## 2. The stamp -/

/-- The length of the stamp: nine bytes between and behind the fields. -/
def stampLength (time : LogTime) : Nat :=
  fieldWidth 4 (time.tmYear.toInt + 1900) + fieldWidth 2 time.tmMon.toInt +
    fieldWidth 2 time.tmMday.toInt + fieldWidth 2 time.tmHour.toInt +
    fieldWidth 2 time.tmMin.toInt + fieldWidth 2 time.tmSec.toInt +
    fieldWidth 3 (time.tvUsec.toInt.tdiv 1000) + 9

theorem logStamp_length (time : LogTime) : (logStamp time).length = stampLength time := by
  have hyear : (blankPadded 4 (bytes (toString (time.tmYear.toInt + 1900)))).length =
      fieldWidth 4 (time.tmYear.toInt + 1900) := blankPadded_length _ _
  have hone : (bytes "/").length = 1 ∧ (bytes " ").length = 1 ∧ (bytes ":").length = 1 ∧
      (bytes ".").length = 1 ∧ (bytes " : ").length = 3 := by decide
  simp only [logStamp, List.length_append, zeroPadded_length, hyear, hone, stampLength]
  omega

/-- A number of type `int`. -/
theorem fieldWidth_int32 (width : Nat) (c : Int32) : fieldWidth width c.toInt ≤ max width 11 := by
  have hle := c.le_toInt
  have hlt := c.toInt_lt
  exact fieldWidth_le (by decide) (by omega)

/-- The stamp fits whatever the clock says. -/
theorem stampLength_bounds (time : LogTime) : 26 ≤ stampLength time ∧ stampLength time < 100 := by
  have hyear : fieldWidth 4 (time.tmYear.toInt + 1900) ≤ 11 := by
    have hle := time.tmYear.le_toInt
    have hlt := time.tmYear.toInt_lt
    exact fieldWidth_le (k := 10) (by decide) (by omega)
  have husec : fieldWidth 3 (time.tvUsec.toInt.tdiv 1000) ≤ 20 := by
    have hle := time.tvUsec.le_toInt
    have hlt := time.tvUsec.toInt_lt
    have hdiv := Int.natAbs_tdiv_le_natAbs time.tvUsec.toInt 1000
    exact fieldWidth_le (k := 19) (by decide) (by omega)
  have hmon := fieldWidth_int32 2 time.tmMon
  have hmday := fieldWidth_int32 2 time.tmMday
  have hhour := fieldWidth_int32 2 time.tmHour
  have hmin := fieldWidth_int32 2 time.tmMin
  have hsec := fieldWidth_int32 2 time.tmSec
  unfold stampLength
  refine ⟨?_, by omega⟩
  unfold fieldWidth
  omega

/-! ## 3. One record -/

/-- The part of the message that is stored behind the stamp. -/
def storedPart (time : LogTime) (msg : List UInt8) : List UInt8 :=
  msg.take (1023 - stampLength time)

section Record
variable {lg : Logger} (buffer : Buf UInt8 1024) {level : LogLevel} {time : LogTime}
  {msg : List UInt8}

/-- No call writes outside of the buffer, which then begins with the stamp and what is
    stored of the message; the length is what can go wrong. -/
theorem loggerLog_record (time : LogTime) (msg : List UInt8) (hfd : 0 ≤ lg.outputFd)
    (hlevel : lg.logLevel.value ≤ level.value) :
    ∃ b : Buf UInt8 1024, logStamp time ++ storedPart time msg <+: b.cells ∧
      loggerLog lg buffer level time msg =
        if stampLength time + vsnprintfRet msg < 2 ^ 31 then
          some (some ⟨b, stampLength time + (storedPart time msg).length,
            stampLength time + vsnprintfRet msg⟩)
        else none := by
  have hbounds := (stampLength_bounds time).2
  have hstamp := logStamp_length time
  have hroom : 1024 - (logStamp time).length - 1 = 1023 - stampLength time := by omega
  -- `sprintf`, whose terminator is the first byte that `vsnprintf` overwrites
  have hfits : (logStamp time ++ [NUL]).length ≤ 1024 := by
    rw [List.length_append, List.length_singleton]
    omega
  obtain ⟨b₁, hb₁, hpre₁⟩ := Buf.store_front buffer hfits
  have hpre : logStamp time <+: b₁.cells := (List.prefix_append _ _).trans hpre₁
  have hroom_le := snprintfBytes_length_le (1024 - (logStamp time).length) msg
  obtain ⟨b₂, hb₂, hpre₂⟩ := Buf.store_append hpre
    (snprintfBytes (1024 - (logStamp time).length) msg) (by omega)
  have hstored : snprintfBytes (1024 - (logStamp time).length) msg =
      storedPart time msg ++ [NUL] := by
    rw [snprintfBytes, if_neg (by omega), hroom]
    rfl
  refine ⟨b₂, ?_, ?_⟩
  · rw [hstored, ← List.append_assoc] at hpre₂
    exact (List.prefix_append _ _).trans hpre₂
  · rw [loggerLog, if_pos ⟨hfd, hlevel⟩]
    simp only [hb₁, hb₂, Option.bind_eq_bind, Option.bind_some, hroom]
    rw [hstamp]
    rfl

theorem loggerLog_silent (time : LogTime) (msg : List UInt8)
    (h : lg.outputFd < 0 ∨ level.value < lg.logLevel.value) :
    loggerLog lg buffer level time msg = some none := by
  rw [loggerLog, if_neg]
  rintro ⟨hfd, hlevel⟩
  rcases h with h | h
  · exact absurd hfd (Int.not_le.mpr h)
  · exact absurd hlevel (Nat.not_le.mpr h)

/-- **A message that fits** is written with its stamp, and nothing else is. -/
theorem loggerLog_whole (hfd : 0 ≤ lg.outputFd) (hlevel : lg.logLevel.value ≤ level.value)
    (hfits : stampLength time + msg.length < 1024) :
    ∃ r, loggerLog lg buffer level time msg = some (some r) ∧
      r.len = stampLength time + msg.length ∧
      r.buffer.read 0 r.len.toNat = logStamp time ++ msg := by
  obtain ⟨b, hpre, hlog⟩ := loggerLog_record buffer time msg hfd hlevel
  have hret : vsnprintfRet msg = msg.length := if_pos (by omega)
  have hstored : storedPart time msg = msg := List.take_of_length_le (by omega)
  rw [hret, if_pos (by omega)] at hlog
  refine ⟨_, hlog, rfl, ?_⟩
  rw [hstored] at hpre
  have htext : (stampLength time + (msg.length : Int)).toNat = (logStamp time ++ msg).length := by
    rw [List.length_append, logStamp_length]
    omega
  rw [Buf.read, List.drop_zero, htext]
  exact (List.prefix_iff_eq_take.mp hpre).symm

/-- The length that `write` is called with stays inside of the buffer, and inside of the text
    that was stored in it. -/
def RecordBounded (call : Option (Option LogRecord)) : Prop :=
  ∃ written, call = some written ∧
    ∀ r, written = some r → 0 ≤ r.len ∧ r.len ≤ 1024 ∧ r.len ≤ r.formatted

/-- A message that does not fit is cut off, but counted whole. -/
theorem not_recordBounded_long (hfd : 0 ≤ lg.outputFd)
    (hlevel : lg.logLevel.value ≤ level.value)
    (hlong : 1024 ≤ stampLength time + msg.length) (hint : msg.length < 2 ^ 31) :
    ¬RecordBounded (loggerLog lg buffer level time msg) := by
  obtain ⟨b, -, hlog⟩ := loggerLog_record buffer time msg hfd hlevel
  have hbounds := (stampLength_bounds time).2
  have hstored : (storedPart time msg).length ≤ 1023 - stampLength time :=
    List.length_take_le _ _
  rw [hlog, vsnprintfRet, if_pos hint]
  rintro ⟨written, hwritten, hrecord⟩
  split_ifs at hwritten with hsum
  obtain rfl := Option.some.inj hwritten
  have hle := (hrecord _ rfl).2.2
  simp only at hle
  omega

/-- A length that is no `int` is not counted. -/
theorem recordBounded_huge (hfd : 0 ≤ lg.outputFd)
    (hlevel : lg.logLevel.value ≤ level.value) (hint : 2 ^ 31 ≤ msg.length) :
    RecordBounded (loggerLog lg buffer level time msg) := by
  obtain ⟨b, -, hlog⟩ := loggerLog_record buffer time msg hfd hlevel
  have hbounds := stampLength_bounds time
  rw [vsnprintfRet, if_neg (Nat.not_lt.mpr hint), if_pos (by omega)] at hlog
  refine ⟨_, hlog, fun r hr => ?_⟩
  obtain rfl := Option.some.inj hr
  dsimp only
  omega

theorem recordBounded_fits (hfd : 0 ≤ lg.outputFd)
    (hlevel : lg.logLevel.value ≤ level.value) (hfits : stampLength time + msg.length < 1024) :
    RecordBounded (loggerLog lg buffer level time msg) := by
  obtain ⟨b, -, hlog⟩ := loggerLog_record buffer time msg hfd hlevel
  have hret : vsnprintfRet msg = msg.length := if_pos (by omega)
  have hstored : storedPart time msg = msg := List.take_of_length_le (by omega)
  rw [hret, if_pos (by omega), hstored] at hlog
  refine ⟨_, hlog, fun r hr => ?_⟩
  obtain rfl := Option.some.inj hr
  dsimp only
  omega

/-- **The length of a record.** -/
theorem loggerLog_bounded (lg : Logger) (buffer : Buf UInt8 1024) (level : LogLevel)
    (time : LogTime) (msg : List UInt8) :
    RecordBounded (loggerLog lg buffer level time msg) ↔
      lg.outputFd < 0 ∨ level.value < lg.logLevel.value ∨
        stampLength time + msg.length < 1024 ∨ 2 ^ 31 ≤ msg.length := by
  constructor
  · intro hbounded
    by_contra hcond
    simp only [not_or, Int.not_lt, Nat.not_lt, Nat.not_le] at hcond
    rcases hcond with ⟨hfd, hlevel, hlong, hint⟩
    exact not_recordBounded_long buffer hfd hlevel hlong hint hbounded
  · intro hcond
    by_cases hfd : 0 ≤ lg.outputFd
    · by_cases hlevel : lg.logLevel.value ≤ level.value
      · rcases hcond with h | h | hfits | hint
        · exact absurd hfd (Int.not_le.mpr h)
        · exact absurd hlevel (Nat.not_le.mpr h)
        · exact recordBounded_fits buffer hfd hlevel hfits
        · exact recordBounded_huge buffer hfd hlevel hint
      · rw [loggerLog_silent buffer time msg (Or.inr (Nat.not_le.mp hlevel))]
        exact ⟨none, rfl, fun r hr => nomatch hr⟩
    · rw [loggerLog_silent buffer time msg (Or.inl (Int.not_le.mp hfd))]
      exact ⟨none, rfl, fun r hr => nomatch hr⟩

end Record

/-- A request with a target of a thousand bytes is logged. -/
theorem loggerLog_not_bounded : ¬RecordBounded
    (loggerLog (loggerStart true) ⟨List.replicate 1024 NUL, List.length_replicate⟩ .info
      ⟨126, 0, 1, 0, 0, 0, 0⟩
      (lOg (bytes "http_request.c") 125
        (bytes "\nGET /" ++ List.replicate 999 'a'.toUInt8 ++ bytes " HTTP/1.1 \n\r\n\n\n"))) := by
  have hstamp := stampLength_bounds ⟨126, 0, 1, 0, 0, 0, 0⟩
  have hwords : (bytes "http_request.c").length = 14 ∧ (bytes (toString 125)).length = 3 ∧
      (bytes "\nGET /").length = 6 ∧ (bytes " HTTP/1.1 \n\r\n\n\n").length = 15 := by decide
  apply not_recordBounded_long
  · decide
  · decide
  · rw [lOg_length]
    simp only [List.length_append, List.length_replicate, hwords]
    omega
  · rw [lOg_length]
    simp only [List.length_append, List.length_replicate, hwords]
    omega

end OServer
