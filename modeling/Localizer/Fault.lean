import Localizer.Text.Quoted

/-!
# What can go wrong

Every operation of the library that can fail says why with a `Fault`. A fault is a cause; the words
that the user reads are made from it in one place, `Fault.message?`. Faults of data that breaks a
general rule (a numeral, an encoding, a missing file) have no words of their own.
-/

namespace Localizer

open Text

inductive ScriptFault where
  | headerTooShort
  /-- A number was expected where the line has nothing. -/
  | emptyToken
  | notHex (token : Text)
  | noTableCount
  /-- An instruction without its byte operand. -/
  | noByte
  /-- An instruction without its word operand. -/
  | noWord
  /-- An instruction whose payload of 5, 8 or 9 bytes lacks an operand. -/
  | noOperands (payload : Nat)
  | unknownPayload (size : Nat) (opcode : Text)
  | argumentTableNotObject
  /-- The table of string arguments names no call. -/
  | argumentTableEmpty
  | argumentEntryNotObject (call : Text)
  /-- The positions of string arguments are not whole numbers. -/
  | badPositions (context value : Text)
  | badFunction (context value : Text)
  deriving DecidableEq, Repr

def ScriptFault.message : ScriptFault → Text
  | headerTooShort => "文件太小，无法解析 ASB 头"
  | emptyToken => "empty token"
  | notHex token => "not a hex token: " ++ quoted token
  | noTableCount => "BTBL missing count"
  | noByte => "missing u8 operand"
  | noWord => "missing u32 operand"
  | noOperands n => "missing operands for " ++ decimal n ++ "-byte payload"
  | unknownPayload n opcode => "unsupported operand_len=" ++ decimal n ++ " for " ++ opcode
  | argumentTableNotObject => "embedded str.json 必须是 JSON 对象（字典）"
  | argumentTableEmpty => "embedded str.json 仅支持分表格式：\x7b\"CALLB\": \x7b...\x7d, \"CALLL\": \x7b...\x7d\x7d"
  | argumentEntryNotObject call => "embedded str.json:" ++ call ++ " 必须是字典"
  | badPositions context value => context ++ ": 期望 int 或 int 列表（支持 -1）: " ++ value
  | badFunction context value => context ++ ": func_id key 必须是 int 或可解析的字符串: " ++ value

inductive IniFault where
  | noSection
  | repeatedSection
  | repeatedOption
  /-- A line that is neither a section nor an option. -/
  | unreadableLine
  deriving DecidableEq, Repr

inductive FontFault where
  | noOption (section_ option : Text)
  | unknownKind
  | noInput
  | tileNotPositive
  | tileOdd
  | sizeNotPositive
  | offsetNegative
  deriving DecidableEq, Repr

def FontFault.message : FontFault → Text
  | noOption sec option => "font.ini 缺少 [" ++ sec ++ "] " ++ option
  | unknownKind => "mode.kind 只支持 patch / tiles"
  | noInput => "font.ini 缺少 [paths] input（mode.kind=patch 需要）"
  | tileNotPositive => "tile 尺寸必须为正数"
  | tileOdd => "tile_w * tile_h 必须为偶数（4bpp 每字节 2 像素）"
  | sizeNotPositive => "font.size_px 必须为正数"
  | offsetNegative => "write.offset 不能为负数"

inductive Obstacle where
  | missing
  | isDirectory
  /-- A file stands in the place of a directory above it. -/
  | notDirectory
  | nameTooLong
  deriving DecidableEq, Repr

def Obstacle.message : Obstacle → Text
  | missing => "[Errno 2] No such file or directory"
  | isDirectory => "[Errno 21] Is a directory"
  | notDirectory => "[Errno 20] Not a directory"
  | nameTooLong => "[Errno 36] File name too long"

/-- The longest text of a value that is quoted in a message. -/
def quotedLength : Nat := 200

/-- What is said of a number with too many digits. -/
def digitLimitMessage (details : Text) : Text :=
  "Exceeds the limit (" ++ decimal maxDecimalDigits ++ " digits) for integer string conversion" ++ details ++
    "; use sys.set_int_max_str_digits() to increase the limit"

def badWholeMessage (value : Text) : Text :=
  match excessDigits? value with
  | some n => digitLimitMessage (": value has " ++ decimal n ++ " digits")
  | none => "invalid literal for int() with base 10: " ++ (quoted value).take quotedLength

inductive MovieFault where
  | noProgram (name : Text)
  | noPictureGroup
  | demuxFailed (output : Text)
  | noSound (path output : Text)
  | unknownRateMode (mode : Text)
  | encodeFailed (output : Text)
  | muxFailed (output : Text)
  | noMovie (path output : Text)
  /-- A step needs a file that something is in the way of. -/
  | unavailable (obstacle : Obstacle) (path : Text)
  /-- A measure of the video is not a whole number. -/
  | badMeasure (value : Text)
  deriving DecidableEq, Repr

def MovieFault.message : MovieFault → Text
  | noProgram name => "命令未找到，请确认已加入 PATH: " ++ name
  | noPictureGroup => "GOP start code not found in m2v"
  | demuxFailed output => "ps2str demux failed:\n" ++ output
  | noSound path output => "未找到原始音频文件: " ++ path ++ "\n\ndemux输出:\n" ++ output
  | unknownRateMode mode => "未知 RATE_MODE: " ++ mode
  | encodeFailed output => "ffmpeg 编码视频失败:\n" ++ output
  | muxFailed output => "ps2str mux 失败:\n" ++ output
  | noMovie path output => "ps2str 未生成输出文件: " ++ path ++ "\n" ++ output
  | unavailable obstacle path => obstacle.message ++ ": " ++ quoted path
  | badMeasure value => badWholeMessage value

inductive Fault where
  | badNumeral
  /-- A number that a message is to name has too many digits to be written. -/
  | tooManyDigits
  /-- Bytes are not in the encoding they should be in. -/
  | undecodable
  /-- A text has a character that the encoding lacks. -/
  | unencodable
  /-- A text file does not start with the mark of its byte order. -/
  | noByteOrderMark
  | badJson
  | noSuchFile
  | isDirectory
  | notDirectory
  /-- A directory cannot be made because there is something of that name. -/
  | fileExists
  | nameTooLong
  | badPath
  | noSuchMember
  | outOfRange
  /-- A value is of a kind that the operation cannot take. -/
  | wrongKind
  | noSuchOperation
  | noSuchPart
  /-- A number does not fit its field, or a field is cut off. -/
  | badField
  /-- A number is too large for what is to be done with it. -/
  | unbounded
  | notAnImage
  | tooManyPixels
  | noRoom
  | tooDeep
  | noSuchRow
  | noGlyph
  /-- An animation file does not start with its mark. -/
  | notAnimation
  /-- The work was given up with a message for the user. -/
  | abandoned (message : Text)
  | script (fault : ScriptFault)
  | ini (fault : IniFault)
  | font (fault : FontFault)
  | movie (fault : MovieFault)
  deriving DecidableEq, Repr

def Fault.message? : Fault → Option Text
  | tooManyDigits => some (digitLimitMessage [])
  | notAnimation => some "Invalid A2A magic"
  | abandoned m => some m
  | script f => some f.message
  | font f => some f.message
  | movie (.unavailable _ _) => none
  | movie (.badMeasure _) => none
  | movie f => some f.message
  | _ => none

end Localizer
