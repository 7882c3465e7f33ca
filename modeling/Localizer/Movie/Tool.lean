import Localizer.Number
import Localizer.Workspace

/-!
# The production of a movie

A movie is taken apart for its sound, its video is encoded again with the subtitles in the picture,
and both are put together. All that is made on the way lies in a directory of its own, which goes
away at the end unless it is to be kept.
-/

namespace Localizer.Movie

open Text

/-! ## The video stream

A video stream is a sequence of sections, each opened by a start code of four bytes. A finished
stream carries a note about its making in front of the first group of pictures, and ends with the
end code. -/

def groupCode : Bytes := [0x00, 0x00, 0x01, 0xB8]

def noteCode : Bytes := [0x00, 0x00, 0x01, 0xB2]

def endCode : Bytes := [0x00, 0x00, 0x01, 0xB7]

def noteWords : Text := "==== Created with subtitle batch tool. Powered by FFMPEG and PS2STR. ===="

def note : Bytes := noteCode ++ noteWords.map fun c => UInt8.ofNat c.toNat

/-- The stream with the note in front of its first group of pictures, if it has one. -/
def annotate? (stream : Bytes) : Option Bytes :=
  (find? groupCode stream).map fun i => stream.take i ++ note ++ stream.drop i

def terminate (stream : Bytes) : Bytes := if endCode.isSuffixOf stream then stream else stream ++ endCode

/-! ## Subtitles in a picture

Subtitles are drawn by a filter of the encoder. The filter names the file with the subtitles and
the style that they are drawn in. -/

/-- A path as a filter writes it: absolute, with slashes, and with the two characters escaped that
have a meaning in a filter. -/
def filterPath (cwd path : Text) : Text :=
  replace "'" "\\'" (replace ":" "\\:" (replaceChar '\\' '/' (Path.absolute cwd path)))

/-- The style of subtitles at a place in the picture, with a margin to its edge. -/
def style (alignment margin : Text) : Text :=
  join "," ["FontName=思源黑体 CN Heavy", "FontSize=22", "PrimaryColour=&H00FFFFFF", "OutlineColour=&H00000000",
    "Outline=1", "Shadow=1", "BackColour=&H66000000", "Alignment=" ++ alignment, "MarginV=" ++ margin]

def subtitleFilter (cwd path alignment margin : Text) : Text :=
  "subtitles='" ++ filterPath cwd path ++ "':force_style='" ++ style alignment margin ++ "'"

/-- The filter for one file of subtitles at the bottom and maybe one at the top, drawn first. -/
def subtitleFilters (cwd bottom : Text) (top? : Option Text) : Text :=
  join "," ((top?.map fun top => subtitleFilter cwd top "6" "10").toList ++ [subtitleFilter cwd bottom "2" "10"])

/-! ## The rate of a video

The new video has to fit where the old one was: its rate follows from the size of the movie, less
that of the sound, and from the duration. -/

/-- The number of frames in a group of pictures: those of half a second, ties to even, at least
one. -/
def groupLength (fps : Number) : Except Fault Int := return max 1 (← Number.rounded (← fps.div (.whole 2)))

/-- The rate in thousands of bits per second of a movie that has no duration. -/
def fallbackRate : Int := 6000

/-- The rate, in thousands of bits per second, of a video that takes the share `reserve` of what the
movie has beside its sound, at least `least` and at most `most`. -/
def targetRate (movie sound : Nat) (duration reserve : Number) (least most : Int) : Except Fault Int := do
  if duration.le (.whole 0) then return fallbackRate
  let size := max 1 (← (← (Number.whole ((movie : Int) - sound)).mul reserve).trunc)
  let rate ← Number.cut ((← (Number.whole (size * 8)).div duration) / 1000)
  return max least (min rate most)

inductive RateMode where
  | strict
  | balanced
  deriving DecidableEq, Repr

def RateMode.ofName? (name : Text) : Option RateMode :=
  if name = "strict" then some .strict else if name = "balanced" then some .balanced else none

def rateText (rate : Int) : Text := decimalInt rate ++ ['k']

/-- The highest rate of a balanced video. -/
def peakRate (rate : Int) : Int := max (rate + 1) ((Decimal.trunc? (Float.ofInt rate * 1.20)).getD 0)

def RateMode.bounds (rate : Int) : RateMode → List Text
  | strict => ["-maxrate", rateText rate, "-minrate", rateText rate]
  | balanced => ["-maxrate", rateText (peakRate rate)]

/-! ## The measures of a video

The measures come from a report with one `name=value` to a line. Of a name given twice the last
value counts; what is missing or cannot be read has a usual value, except that a width or a height
that is given must be a whole number. -/

structure Measures where
  width : Int := 640
  height : Int := 480
  fps : Float := 24.0
  bitRate : Int := 6000000
  duration : Float := 0.0

def reportFields (report : Text) : List (Text × Text) := (lines report).filterMap fun l => splitOnce? '=' (trim l)

def reported? (report name : Text) : Option Text :=
  ((reportFields report).reverse.find? fun f => f.1 = name).map Prod.snd

/-- A frame rate, given as a number or as a quotient. A quotient by zero counts as none. -/
def frameRate? (t : Text) : Option Float :=
  match splitOn '/' t with
  | [_] => Decimal.read? t
  | [a, b] => do
    let d ← Decimal.read? b
    if d == 0 then none else return (← Decimal.read? a) / d
  | _ => none

def pixels (usual : Int) : Option Text → Except Fault Int
  | none => .ok usual
  | some t => (readDecimal? t).elim (.error (.movie (.badMeasure t))) .ok

def readMeasures (report : Text) : Except Fault Measures := do
  let usual : Measures := {}
  return {
    width := ← pixels usual.width (reported? report "width")
    height := ← pixels usual.height (reported? report "height")
    fps := ((reported? report "r_frame_rate").bind frameRate?).getD usual.fps
    bitRate := ((reported? report "bit_rate").bind readDecimal?).getD usual.bitRate
    duration := ((reported? report "duration").bind Decimal.read?).getD usual.duration }

/-! ## The programs behind a movie

Three external programs do the work on a movie: one reports the measures of a video, one encodes,
and one takes a movie apart and puts it together. Each leaves its product where its arguments say.
-/

/-- The name that a program is known by: for the one with two jobs, its name and the job. -/
def programName : List Text → Text
  | name :: job :: _ => if name = "ps2str" then name ++ " " ++ job else name
  | command => command.headD []

def productPath? (command : List Text) : Option Text :=
  let argument (i : Nat) : Text := command.getD i []
  let name := programName command
  if name = "ffmpeg" then command.getLast?
  else if name = "ps2str d" then
    some (Path.append (argument 5) ((Path.splitExtension (Path.base (argument 6))).1 ++ "_pcm_0.ads"))
  else if name = "ps2str m" then some (Path.append (argument 5) (argument 7))
  else none

/-- Puts a product in its place, with the directories that it needs. -/
def placeProduct (ws : Workspace) (path : Text) (product : File) : Workspace :=
  (ws.addDir (ws.place path).dropLast).setFile (ws.place path) product

/-- Runs a command: its exit code and what it printed, without the blanks at the ends of lines. -/
def execute (command : List Text) : Job (Int × Text) := do
  modify fun ws => { ws with commands := command :: ws.commands }
  match (← get).programs.lookup (programName command) with
  | none => throw (.movie (.noProgram (command.headD [])))
  | some program =>
    match productPath? command, program.product with
    | some path, some product => modify fun ws => placeProduct ws path product
    | _, _ => pure ()
    return (program.code, join "\n" (program.output.map trimEnd))

/-! ## The production of a movie -/

structure Settings where
  mode : Text := "balanced"
  keep : Bool := false

/-- The share of the old size that the new video may take. -/
def reserve : Float := 0.97

/-! ### Steps -/

/-- What is in the way of the file at a path, if the fault is of that kind. -/
def atPath (path : Text) : Fault → Fault
  | .noSuchFile => .movie (.unavailable .missing path)
  | .isDirectory => .movie (.unavailable .isDirectory path)
  | .notDirectory => .movie (.unavailable .notDirectory path)
  | .nameTooLong => .movie (.unavailable .nameTooLong path)
  | f => f

/-- Does work on the file at a path. What is in the way is said with the path. -/
def on {α : Type} (path : Text) (work : Job α) : Job α := tryCatch work fun f => throw (atPath path f)

def fileSize (path : Text) : Job Nat := on path do return (← Job.ofExcept ((← get).read path)).size

def inMegabytes (bytes : Nat) : Float := Float.ofNat bytes / 1024 / 1024

/-- The size of the file at a path in units of 1024 · 1024 bytes, zero if there is none. -/
def megabytes (path : Text) : Job Float := return inMegabytes (((← get).file? path).elim 0 File.size)

def readStream (path : Text) : Job Bytes := on path (Job.readBytes path)

def annotateFile (path : Text) : Job Unit := do
  Job.writeBytes path (← Job.require (.movie .noPictureGroup) (annotate? (← readStream path)))

def terminateFile (path : Text) : Job Unit := do
  Job.writeBytes path (terminate (← readStream path))

/-- The measures of the video in a file; the usual ones if it cannot be measured. -/
def measure (path : Text) : Job Measures := do
  let (code, out) ← execute ["ffprobe", "-v", "error", "-select_streams", "v:0",
    "-show_entries", "stream=width,height,r_frame_rate,bit_rate", "-show_entries", "format=duration",
    "-of", "default=noprint_wrappers=1:nokey=0", path]
  if code ≠ 0 then return {} else Job.ofExcept (readMeasures out)

/-- Takes a movie apart into a directory: the path of its sound, and what was printed. -/
def takeApart (movie dir base : Text) : Job (Text × Text) := do
  let (code, out) ← execute ["ps2str", "d", "-o", "-v", "-d", dir, movie]
  if code ≠ 0 then throw (.movie (.demuxFailed out))
  let sound := Path.append dir (base ++ "_pcm_0.ads")
  if !(← get).exists_ sound then throw (.movie (.noSound sound out))
  return (sound, out)

structure Encoded where
  measures : Measures
  rate : Int
  /-- The number of frames in a group of pictures. -/
  group : Int
  mode : Text
  size : Nat
  log : Text

def encodeCommand (movie filter video : Text) (m : Measures) (rate group : Int) (mode : RateMode) : List Text :=
  let parts : List (List Text) := [
    ["ffmpeg", "-threads", "2", "-i", movie, "-vf", filter],
    words "-c:v mpeg2video -profile:v 4 -level:v 8",
    ["-b:v", rateText rate],
    mode.bounds rate,
    words "-bufsize 1835k -color_range tv -colorspace smpte170m -color_trc smpte170m",
    words "-color_primaries smpte170m -field_order progressive",
    ["-g", decimalInt group, "-r", Decimal.fixed 6 m.fps, "-s", decimalInt m.width ++ "x" ++ decimalInt m.height],
    ["-an", "-y", video]]
  parts.flatten

/-- Encodes the video of a movie again, with subtitles at the bottom and maybe at the top. -/
def encode (mode movie bottom video sound : Text) (top? : Option Text) : Job Encoded := do
  let ws ← get
  let filter := subtitleFilters ws.cwd bottom (top?.filter fun top => !top.isEmpty && ws.exists_ top)
  let m ← measure movie
  let group ← Job.ofExcept (groupLength (.real m.fps))
  let rate ← Job.ofExcept (targetRate (← fileSize movie) (← fileSize sound) (.real m.duration) (.real reserve) 1200 9000)
  let rateMode ← Job.require (.movie (.unknownRateMode mode)) (RateMode.ofName? mode)
  let (code, out) ← execute (encodeCommand movie filter video m rate group rateMode)
  if code ≠ 0 then throw (.movie (.encodeFailed out))
  return ⟨m, rate, group, mode, ((← get).file? video).elim 0 File.size, out⟩

def recipe (video sound : Text) : Text :=
  let stream (name path : Text) : Text :=
    "    stream " ++ name ++ "\n        input \"" ++ replaceChar '\\' '/' path ++ "\"\n    end\n"
  "pss\n\n" ++ stream "video:0" video ++ "\n" ++ stream "pcm:0" sound ++ "end\n"

def putTogether (recipePath movie dir : Text) : Job Text := do
  let (code, out) ← execute ["ps2str", "m", "-o", "-v", "-d", dir, recipePath, Path.base movie]
  if code ≠ 0 then throw (.movie (.muxFailed out))
  if !(← get).exists_ movie then throw (.movie (.noMovie movie out))
  return out

/-! ### One movie -/

structure Task where
  name : Text
  movie : Text
  bottom : Text
  top : Text
  target : Text
  hasTop : Bool

def Task.base (t : Task) : Text := (Path.splitExtension t.name).1

def explain : Fault → Text
  | .movie f => f.message
  | .badPath => "embedded null byte"
  | .badNumeral => "cannot convert float NaN to integer"
  | .unbounded => "cannot convert float infinity to integer"
  | f => f.message?.getD []

def rule : Text := List.replicate 60 '='

def megabyteText (size : Float) : Text := Decimal.fixed 2 size ++ " MB"

def announce (s : Settings) (t : Task) (dir : Text) (size : Float) : Job Unit := do
  Job.printLine ("\n" ++ rule)
  Job.printLine ("开始处理: " ++ t.name)
  Job.printLine ("输入PSS: " ++ t.movie)
  if t.hasTop then Job.printLine ("上行字幕: " ++ t.top)
  Job.printLine ("下行字幕: " ++ t.bottom)
  Job.printLine ("输出PSS: " ++ t.target)
  Job.printLine ("临时目录: " ++ dir)
  Job.printLine ("编码模式: " ++ s.mode)
  Job.printLine ("体积预留比例: " ++ Decimal.shortestText reserve)
  Job.printLine ("原始PSS大小: " ++ megabyteText size)

def Encoded.summary (e : Encoded) : Text :=
  join " | " ["分辨率: " ++ decimalInt e.measures.width ++ "x" ++ decimalInt e.measures.height,
    "帧率: " ++ Decimal.fixed 6 e.measures.fps, "时长: " ++ Decimal.fixed 3 e.measures.duration ++ "s",
    "目标码率: " ++ rateText e.rate, "GOP: " ++ decimalInt e.group, "模式: " ++ e.mode]

def reportSizes (t : Task) (old new : Float) : Job Unit := do
  let diff := new - old
  let percent := if old > 0 then diff / old * 100.0 else 0.0
  Job.printLine ("输出PSS大小: " ++ megabyteText new)
  Job.printLine ("大小变化: " ++ Decimal.fixedSigned 2 diff ++ " MB (" ++ Decimal.fixedSigned 2 percent ++ "%)")
  Job.printLine ("成功: " ++ t.name)

def make (s : Settings) (t : Task) (dir : Text) : Job Unit := do
  let old ← megabytes t.movie
  announce s t dir old
  Job.printLine "[1/4] 拆出原始音频..."
  let (sound, _) ← takeApart t.movie dir t.base
  Job.printLine ("原始音频: " ++ sound)
  Job.printLine ("原始音频大小: " ++ megabyteText (← megabytes sound))
  let video := Path.append dir (t.base ++ "_video_0.m2v")
  Job.printLine "[2/4] 烧字幕并编码新视频..."
  let e ← encode s.mode t.movie t.bottom video sound (if t.hasTop then some t.top else none)
  Job.printLine e.summary
  Job.printLine ("新视频大小: " ++ megabyteText (inMegabytes e.size))
  Job.printLine "[3/4] 修正 m2v 元数据..."
  annotateFile video
  terminateFile video
  let recipePath := Path.append dir (t.base ++ ".mux")
  on recipePath (Job.writeUtf8 recipePath (recipe video sound))
  Job.printLine "[4/4] 重新封装 PSS..."
  let _ ← putTogether recipePath t.target (Path.directory t.target)
  reportSizes t old (← megabytes t.target)

/-- The result of one task: the fault in words, if it failed. -/
structure Result where
  name : Text
  fault? : Option Text

/-- Makes one movie in a directory, which is made first. A fault ends the work on this movie only.
-/
def produceIn (dir : Text) (s : Settings) (t : Task) : Job Result := do
  Job.makeDirs dir
  let result ← try
      make s t dir
      pure ⟨t.name, none⟩
    catch f => do
      Job.printLine ("失败: " ++ t.name)
      Job.printLine (explain f)
      pure ⟨t.name, some (explain f)⟩
  if s.keep then Job.printLine ("保留临时目录: " ++ dir) else modify fun ws => ws.removeTree dir
  return result

def produce (s : Settings) (t : Task) : Job Result := do
  produceIn (Path.append (← get).cwd ("tmp/pss_" ++ t.base ++ "_0")) s t

/-! ## The movie tool

Makes the movies of a folder again, each with the subtitles of the same name. -/

/-- The number of movies that are made side by side unless the user gives one. -/
def defaultWorkers : Int := 4

def usage : Text :=
  "用法:
  python pss.py <pss文件夹> <字幕文件夹> <输出文件夹> [并行数] [模式]

模式:
  strict   -> 严格 CBR，兼容优先（默认）
  balanced -> 轻度 ABR，体积/画质更平衡"

/-- The number of workers and the name of the mode. Either may be left out; what is no number is a
mode. -/
def readOptions (args : List Text) : Int × Option Text :=
  match args with
  | [] => (defaultWorkers, none)
  | a :: rest =>
    match readDecimal? a with
    | some n => (max 1 n, rest.head?)
    | none => (defaultWorkers, some a)

def taskFor (ws : Workspace) (movies subtitles target name : Text) : Task :=
  let base := (Path.splitExtension name).1
  let top := Path.append subtitles (base ++ ".srt1")
  ⟨name, Path.append movies name, Path.append subtitles (base ++ ".srt"), top, Path.append target name, ws.exists_ top⟩

/-- The tasks that can be done. Those without subtitles at the bottom are skipped, with a word. -/
def selectTasks (ws : Workspace) : List Task → Job (List Task)
  | [] => return []
  | t :: ts => do
    if ws.exists_ t.bottom then return t :: (← selectTasks ws ts)
    else
      Job.printLine ("跳过: 未找到下行字幕 -> " ++ t.base ++ ".srt")
      selectTasks ws ts

def produceAll (s : Settings) (workers : Int) (movies subtitles target : Text) : Job Nat := do
  Job.makeDirs target
  let ws ← get
  let names := (ws.names movies).filter fun n => endsWith (lower n) ".pss"
  if names.isEmpty then
    Job.printLine "没有找到 .pss 文件"
    return 0
  Job.printLine ("PSS目录: " ++ movies)
  Job.printLine ("字幕目录: " ++ subtitles)
  Job.printLine ("输出目录: " ++ target)
  Job.printLine ("并行数: " ++ decimalInt workers)
  Job.printLine ("编码模式: " ++ s.mode)
  Job.printLine ("目标体积预留比例: " ++ Decimal.shortestText reserve)
  Job.printLine ("找到 PSS 数量: " ++ decimal names.length)
  Job.printLine "工具调用方式: ffmpeg / ffprobe / ps2str 均从 PATH 直接调用"
  let tasks ← selectTasks ws (names.map (taskFor ws movies subtitles target))
  let skipped := names.length - tasks.length
  if tasks.isEmpty then
    Job.printLine "没有可处理任务"
    Job.printLine ("跳过: " ++ decimal skipped)
    return 0
  let results ← tasks.mapM (produce s)
  let (failed, made) := results.partition fun r => r.fault?.isSome
  Job.printLine ("\n" ++ rule)
  Job.printLine "批量处理完成"
  Job.printLine ("成功: " ++ decimal made.length)
  Job.printLine ("跳过: " ++ decimal skipped)
  Job.printLine ("失败: " ++ decimal failed.length)
  Job.printLine rule
  return 0

def refuse (message : Text) : Job Nat := do
  Job.printLine message
  return 1

def run : List Text → Job Nat
  | movies :: subtitles :: target :: options => do
    let ws ← get
    let movies := Path.absolute ws.cwd movies
    let subtitles := Path.absolute ws.cwd subtitles
    let (workers, mode?) := readOptions options
    let mode := (mode?.map fun m => lower (trim m)).getD ("balanced" : Text)
    if (RateMode.ofName? mode).isNone then refuse "错误：模式必须是 strict 或 balanced"
    else if !ws.isDir movies then refuse ("错误：PSS 文件夹不存在 -> " ++ movies)
    else if !ws.isDir subtitles then refuse ("错误：字幕文件夹不存在 -> " ++ subtitles)
    else produceAll { mode } workers movies subtitles (Path.absolute ws.cwd target)
  | _ => refuse usage

end Localizer.Movie
