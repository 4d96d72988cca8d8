import BitcoinServer.Command.ReplyFrame
import BitcoinServer.Command.Segmentation
import BitcoinServer.Library.Printf
import BitcoinServer.Solution.Target

/-!
Contract: the two buffers of `logger_log` against what it writes into them.

`cpy` gets `strlen(str)` bytes for a copy with its terminator, `to_write` gets `42 + len`
for a line that has 49 characters besides `str` and its own terminator. `LOG_OUTPUT` is 0.

Owns the length of a line for every date, descriptor and address, the calls for which it fits
into `to_write`, and that no call keeps within both buffers.
-/

namespace BitcoinServer.Server

open CText Command Printf Solution

/-! ## The source's functions -/

/-- `struct tm`. -/
structure Tm where
  tmSec : Int
  tmMin : Int
  tmHour : Int
  tmMday : Int
  tmMon : Int
  tmYear : Int

/-- `struct sockaddr_in`, its fields as they lie in memory. -/
structure SockaddrIn where
  sinPort : UInt16
  sinAddr : UInt32

/-- `_logger_svr_info`, the byte order of the machine and what `localtime_r` gives at the time
of the call. -/
structure Logger where
  svrInfo : SockaddrIn
  host : Host
  timeinfo : Tm

def ntohs (host : Host) (value : UInt16) : UInt16 :=
  UInt16.ofNat (BigEndian.toNat (host.memory 2 value.toNat))

/-- Bytes in decimal, with dots between them. -/
def dotted : List UInt8 → List UInt8
  | [] => []
  | [byte] => digits byte.toNat
  | byte :: next :: rest => digits byte.toNat ++ 46 :: dotted (next :: rest)

/-- `inet_ntoa`. -/
def inetNtoa (host : Host) (addr : UInt32) : List UInt8 := dotted (host.memory 4 addr.toNat)

def strcpy (dst : Cells) (src : List UInt8) : Option Cells :=
  memcpy dst 0 ((src ++ [0]).map some) 0 (src.length + 1)

/-- `"[%02d/%02d/%02d %02d:%02d:%02d] %03d %s %-15s:%05d %s\n"` and its arguments. -/
def logFields (logger : Logger) (src : Option SockaddrIn) (id : Int) (cpy : List UInt8) :
    List Field :=
  let timeinfo := logger.timeinfo
  let to_ := match src with
    | none => ascii ['<']
    | some _ => ascii ['@']
  let ip := match src with
    | none => ascii ['0', '.', '0', '.', '0', '.', '0']
    | some addr => inetNtoa logger.host addr.sinAddr
  let port := match src with
    | none => ntohs logger.host logger.svrInfo.sinPort
    | some addr => ntohs logger.host addr.sinPort
  [.text (ascii ['[']), .decimal 2 timeinfo.tmMday, .text (ascii ['/']),
    .decimal 2 (timeinfo.tmMon + 1), .text (ascii ['/']), .decimal 2 (timeinfo.tmYear - 100),
    .text (ascii [' ']), .decimal 2 timeinfo.tmHour, .text (ascii [':']),
    .decimal 2 timeinfo.tmMin, .text (ascii [':']), .decimal 2 timeinfo.tmSec,
    .text (ascii [']', ' ']), .decimal 3 id, .text (ascii [' ']), .text to_, .text (ascii [' ']),
    .padded 15 ip, .text (ascii [':']), .decimal 5 port.toNat, .text (ascii [' ']), .text cpy,
    .text (ascii ['\n'])]

/-- `logger_log`: the bytes for `fwrite`. -/
def loggerLog (logger : Logger) (src : Option SockaddrIn) (id : Int) (str : List UInt8)
    (len : Int) : Option (List UInt8) := do
  let cpy ← strcpy (malloc str.length) str
  let toWrite : Cells := List.replicate (42 + len).toNat (some 0)
  let toWrite ← strcpy toWrite (printf (logFields logger src id (← readString cpy)))
  readString toWrite

/-! ## Its calls -/

/-- The arguments of `logger_log`. -/
structure LogCall where
  src : Option SockaddrIn
  id : Int
  str : List UInt8
  len : Nat
  noNul : ∀ byte ∈ str, byte ≠ 0
  strlen_le : str.length ≤ len

/-- The line with its newline and its terminator is at most `42 + len` bytes long. -/
def LineFits (logger : Logger) (call : LogCall) : Prop :=
  (printf (logFields logger call.src call.id call.str)).length + 1 ≤ 42 + call.len

/-- The copy with its terminator fits into `cpy`. -/
def CopyFits (call : LogCall) : Prop := call.str.length + 1 ≤ (malloc call.str.length).length

/-- Both buffers have the right size for the call. -/
structure LogFits (logger : Logger) (call : LogCall) : Prop where
  line : LineFits logger call
  copy : CopyFits call

/-- Characters of the numbers beyond the widths of their fields. -/
def lineExcess (logger : Logger) (call : LogCall) : Nat :=
  ((logFields logger call.src call.id call.str).map Field.excess).sum

/-! ## The buffers -/

theorem strcpy_isSome_iff (dst : Cells) (src : List UInt8) :
    (strcpy dst src).isSome ↔ src.length + 1 ≤ dst.length := by
  have size : ((src ++ [0]).map some).length = src.length + 1 := by
    rw [List.length_map, List.length_append, List.length_singleton]
  unfold strcpy memcpy
  rw [Option.isSome_ite, size]
  omega

section Call

variable (logger : Logger) (call : LogCall)

theorem not_copyFits : ¬ CopyFits call := by
  intro fits
  have size : (malloc call.str.length).length = call.str.length := List.length_replicate
  rw [CopyFits, size] at fits
  omega

/-- The terminator of the copy is written behind `cpy`. -/
theorem loggerLog_eq_none : loggerLog logger call.src call.id call.str call.len = none := by
  have overflow : strcpy (malloc call.str.length) call.str = none := by
    rw [← Option.not_isSome_iff_eq_none, strcpy_isSome_iff]
    exact not_copyFits call
  unfold loggerLog
  rw [overflow]
  rfl

/-- `sprintf` stays inside `to_write` exactly for a line that fits. -/
theorem strcpy_toWrite_isSome_iff :
    (strcpy (List.replicate (42 + (call.len : Int)).toNat (some 0))
        (printf (logFields logger call.src call.id call.str))).isSome ↔ LineFits logger call := by
  rw [strcpy_isSome_iff, List.length_replicate, LineFits]
  omega

theorem length_line :
    (printf (logFields logger call.src call.id call.str)).length =
      49 + call.str.length + lineExcess logger call := by
  have width : ((logFields logger call.src call.id call.str).map Field.width).sum =
      49 + call.str.length := by
    unfold logFields
    cases call.src <;>
      simp only [List.map_cons, List.map_nil, List.sum_cons, List.sum_nil, Field.width, ascii,
        List.length_cons, List.length_nil] <;>
      omega
  rw [length_printf, width]
  rfl

theorem lineFits_iff :
    LineFits logger call ↔ call.str.length + 8 + lineExcess logger call ≤ call.len := by
  rw [LineFits, length_line]
  omega

/-- No call keeps within `cpy`; within `to_write` do those that leave 8 bytes more than `str`
and the excess of the numbers. -/
theorem log_never_fits :
    ¬ LogFits logger call ∧
      (LineFits logger call ↔ call.str.length + 8 + lineExcess logger call ≤ call.len) :=
  ⟨fun fits => not_copyFits call fits.copy, lineFits_iff logger call⟩

/-- A call with the length of its string never keeps within `to_write`. -/
theorem not_lineFits_of_length (whole : call.len = call.str.length) :
    ¬ LineFits logger call := by
  rw [lineFits_iff]
  omega

end Call

/-! ## Numbers that stay within their widths -/

theorem length_dotted_lt {bytes : List UInt8} (nonempty : bytes ≠ []) :
    (dotted bytes).length < 4 * bytes.length := by
  have three : ∀ byte : UInt8, (digits byte.toNat).length ≤ 3 := by
    intro byte
    have bound := byte.toNat_lt
    apply (length_digits_le_iff _ (by decide)).mpr
    rw [Int.natAbs_natCast]
    omega
  induction bytes with
  | nil => exact absurd rfl nonempty
  | cons byte rest inductionHypothesis =>
      have first := three byte
      cases rest with
      | nil =>
          rw [dotted, List.length_singleton]
          omega
      | cons next rest =>
          have later := inductionHypothesis (List.cons_ne_nil next rest)
          rw [dotted, List.length_append, List.length_cons, List.length_cons]
          omega

theorem length_inetNtoa_le (host : Host) (addr : UInt32) : (inetNtoa host addr).length ≤ 15 := by
  have four : (host.memory 4 addr.toNat).length = 4 := by
    cases host <;> rfl
  have nonempty : host.memory 4 addr.toNat ≠ [] := List.ne_nil_of_length_pos (by omega)
  have shorter := length_dotted_lt nonempty
  rw [four] at shorter
  exact Nat.le_of_lt_succ shorter

/-- A date from 2000 to 2099, and a descriptor below 1000. -/
structure Ordinary (logger : Logger) (call : LogCall) : Prop where
  day : 0 ≤ logger.timeinfo.tmMday ∧ logger.timeinfo.tmMday < 100
  month : 0 ≤ logger.timeinfo.tmMon + 1 ∧ logger.timeinfo.tmMon + 1 < 100
  year : 0 ≤ logger.timeinfo.tmYear - 100 ∧ logger.timeinfo.tmYear - 100 < 100
  hour : 0 ≤ logger.timeinfo.tmHour ∧ logger.timeinfo.tmHour < 100
  minute : 0 ≤ logger.timeinfo.tmMin ∧ logger.timeinfo.tmMin < 100
  second : 0 ≤ logger.timeinfo.tmSec ∧ logger.timeinfo.tmSec < 100
  descriptor : 0 ≤ call.id ∧ call.id < 1000

theorem excess_of_range {width : Nat} (wide : 1 < width) {value : Int}
    (range : 0 ≤ value ∧ value < 10 ^ width) : (Field.decimal width value).excess = 0 := by
  have digits : (value.natAbs : Int) < ((10 ^ width : Nat) : Int) := by
    rw [Int.natAbs_of_nonneg range.1]
    exact_mod_cast range.2
  rw [excess_decimal_iff _ wide, if_neg (by omega)]
  exact_mod_cast digits

/-- An address has 15 characters at most, and a port five digits. -/
theorem lineExcess_of_ordinary {logger : Logger} {call : LogCall}
    (ordinary : Ordinary logger call) : lineExcess logger call = 0 := by
  have port : ∀ port : UInt16, (Field.decimal 5 port.toNat).excess = 0 := fun port =>
    excess_of_range (by decide) ⟨Int.natCast_nonneg _, by have := port.toNat_lt; omega⟩
  have ip : ∀ addr, (Field.padded 15 (inetNtoa logger.host addr)).excess = 0 := fun addr =>
    Nat.sub_eq_zero_of_le (length_inetNtoa_le _ addr)
  have zeros : (Field.padded 15 (ascii ['0', '.', '0', '.', '0', '.', '0'])).excess = 0 := rfl
  have text : ∀ characters, (Field.text characters).excess = 0 := fun _ => rfl
  unfold lineExcess logFields
  cases call.src <;>
    simp only [List.map_cons, List.map_nil, List.sum_cons, List.sum_nil, text, port, ip, zeros,
      excess_of_range (by decide : 1 < 2) ordinary.day,
      excess_of_range (by decide : 1 < 2) ordinary.month,
      excess_of_range (by decide : 1 < 2) ordinary.year,
      excess_of_range (by decide : 1 < 2) ordinary.hour,
      excess_of_range (by decide : 1 < 2) ordinary.minute,
      excess_of_range (by decide : 1 < 2) ordinary.second,
      excess_of_range (by decide : 1 < 3) ordinary.descriptor, Nat.add_zero]

/-! ## The calls of the program -/

theorem length_cString_le (front back : List UInt8) :
    (cString (front ++ 0 :: back)).length ≤ front.length := by
  induction front with
  | nil => exact Nat.le_refl 0
  | cons byte front inductionHypothesis =>
      by_cases zero : byte = 0
      · rw [zero]
        exact Nat.zero_le _
      · have step : cString (byte :: front ++ 0 :: back) =
            byte :: cString (front ++ 0 :: back) :=
          List.takeWhile_cons_of_pos (decide_eq_true zero)
        rw [step, List.length_cons, List.length_cons]
        exact Nat.succ_le_succ inductionHypothesis

/-- `to_log` of `send_message`, up to its terminator and behind it. -/
theorem toLog_split {toSend : List UInt8} (room : 2 ≤ toSend.length) :
    toSend.set (toSend.length - 2) 0 =
      toSend.take (toSend.length - 2) ++ 0 :: toSend.drop (toSend.length - 2 + 1) := by
  rw [List.set_eq_take_append_cons_drop, if_pos (by omega)]

/-- The places that call `logger_log`: `main` for a client that it takes and one that it
refuses, `client_handler` at the end of its input and for a command, and `send_message` for the
`len` bytes that it is given. -/
inductive LogSite where
  | connected (cliAddr : SockaddrIn) (newsockfd : Int)
  | refused (cliAddr : SockaddrIn) (newsockfd : Int)
  | disconnected (addr : SockaddrIn) (newsockfd : Int)
  | command (addr : SockaddrIn) (newsockfd : Int) (cmd : List UInt8)
  | message (newsockfd : Int) (toSend : List UInt8) (room : 2 ≤ toSend.length)

def connectedText : List UInt8 := ascii ['C', 'o', 'n', 'n', 'e', 'c', 't', 'e', 'd']

/-- `"Maximum number of clients reached. Disconnecting new client."` -/
def refusedText : List UInt8 :=
  ascii ['M', 'a', 'x', 'i', 'm', 'u', 'm', ' ', 'n', 'u', 'm', 'b', 'e', 'r', ' ', 'o', 'f', ' ',
    'c', 'l', 'i', 'e', 'n', 't', 's', ' ', 'r', 'e', 'a', 'c', 'h', 'e', 'd', '.', ' ',
    'D', 'i', 's', 'c', 'o', 'n', 'n', 'e', 'c', 't', 'i', 'n', 'g', ' ', 'n', 'e', 'w', ' ',
    'c', 'l', 'i', 'e', 'n', 't', '.']

def disconnectedText : List UInt8 :=
  ascii ['D', 'i', 's', 'c', 'o', 'n', 'n', 'e', 'c', 't', 'e', 'd']

theorem noNul_texts :
    ∀ text ∈ [connectedText, refusedText, disconnectedText], ∀ byte ∈ text, byte ≠ 0 := by
  decide +kernel

theorem length_toLog_le {toSend : List UInt8} (room : 2 ≤ toSend.length) :
    (cString (toSend.set (toSend.length - 2) 0)).length ≤ toSend.length - 2 := by
  rw [toLog_split room]
  exact (length_cString_le _ _).trans (List.length_take_le _ _)

def LogSite.call : LogSite → LogCall
  | .connected cliAddr newsockfd =>
      ⟨some cliAddr, newsockfd, connectedText, 9, noNul_texts _ (by simp), Nat.le_refl _⟩
  | .refused cliAddr newsockfd =>
      ⟨some cliAddr, newsockfd, refusedText, refusedText.length, noNul_texts _ (by simp),
        Nat.le_refl _⟩
  | .disconnected addr newsockfd =>
      ⟨some addr, newsockfd, disconnectedText, 12, noNul_texts _ (by simp), Nat.le_refl _⟩
  | .command addr newsockfd cmd =>
      ⟨some addr, newsockfd, cString cmd, (cString cmd).length, noNul_cString cmd, Nat.le_refl _⟩
  | .message newsockfd toSend room =>
      ⟨none, newsockfd, cString (toSend.set (toSend.length - 2) 0), toSend.length - 2,
        noNul_cString _, length_toLog_le room⟩

/-- Nothing that the program sends at this place has a NUL inside. -/
def LogSite.Plain : LogSite → Prop
  | .message _ toSend _ => ∀ byte ∈ toSend, byte ≠ 0
  | _ => True

theorem LogSite.len_of_plain {site : LogSite} (plain : site.Plain) :
    site.call.len = site.call.str.length := by
  cases site with
  | connected cliAddr newsockfd => rfl
  | refused cliAddr newsockfd => rfl
  | disconnected addr newsockfd => rfl
  | command addr newsockfd cmd => rfl
  | message newsockfd toSend room =>
      show toSend.length - 2 = (cString (toSend.set (toSend.length - 2) 0)).length
      rw [toLog_split room, cString_append_nul fun byte member =>
        plain byte (List.mem_of_mem_take member), List.length_take]
      omega

/-- The line of every call but that for a message with a NUL inside is longer than `to_write`. -/
theorem LogSite.not_lineFits (logger : Logger) {site : LogSite} (plain : site.Plain) :
    ¬ LineFits logger site.call :=
  not_lineFits_of_length logger site.call (len_of_plain plain)

/-- So is the line of every formatted reply. -/
theorem not_lineFits_formatted (logger : Logger) (newsockfd : Int) (info : ReplyInfo)
    (msg : ReplyText) (room : 2 ≤ (sendFormatted info.characters msg.characters).length) :
    ¬ LineFits logger (LogSite.message newsockfd _ room).call :=
  LogSite.not_lineFits logger (noNul_frame info msg)

/-- Port 4480 of every local address, on 1 May 2017 at noon. -/
def mayLogger : Logger where
  svrInfo := ⟨0x8011, 0⟩
  host := .littleEndian
  timeinfo := ⟨0, 0, 12, 1, 4, 117⟩

/-- `"Connected"` needs 59 bytes of the 51. -/
theorem log_overflows_connected : ¬ ∀ logger call, LogFits logger call := by
  intro always
  have fits := (always mayLogger (LogSite.connected ⟨0x8011, 0x0100007f⟩ 4).call).line
  rw [lineFits_iff] at fits
  exact absurd fits (by decide)

end BitcoinServer.Server
