import Localizer.Document
import Localizer.Font.Tile
import Localizer.Ini

/-!
# The font tool

Draws the characters of a code table as tiles and writes them one after another, alone or into a
copy of a file.
-/

namespace Localizer.Font

open Text

/-! ## Font jobs

What a font job is to do is said in a configuration file: whether tiles are put into an existing
file or written alone, the files, the size of the face, and the shape of the tiles. -/

inductive Mode where
  | patch
  | tiles
  deriving DecidableEq, Repr

def Mode.name : Mode → Text
  | patch => "patch"
  | tiles => "tiles"

def modeWords : List (Text × Mode) :=
  [("patch", .patch), ("file", .patch), ("write", .patch), ("inplace", .patch), ("tiles", .tiles), ("tile", .tiles),
   ("dump", .tiles), ("single", .tiles)]

structure Config where
  mode : Mode
  input : Text
  output : Text
  codeTable : Text
  font : Text
  fontIndex : Int
  fontSize : Int
  tileWidth : Int
  tileHeight : Int
  /-- Where the first tile is put, if tiles are put into a file. -/
  offset? : Option Int
  maxTiles? : Option Int
  /-- Whether the left one of two pixels is in the high half of a byte. -/
  leftHigh : Bool
  flipX : Bool
  flipY : Bool

def required (ini : Ini) (sec name : Text) : Except Fault Text :=
  (ini.get? sec name).elim (.error (.font (.noOption sec name))) .ok

/-- The number that a text spells between white space, in any base that it announces. -/
def number (t : Text) : Except Fault Int := (readMarked? (trim t)).elim (.error .badNumeral) .ok

/-- The number of an option, read as `default` if it is not given. -/
def numberOr (ini : Ini) (sec name default : Text) : Except Fault Int := number ((ini.get? sec name).getD default)

def modeOf (ini : Ini) : Except Fault Mode :=
  (modeWords.lookup (lower (trim ((ini.get? "mode" "kind").getD "patch")))).elim (.error (.font .unknownKind)) .ok

def inputOf (ini : Ini) (base : Text) (mode : Mode) : Except Fault Text :=
  let path := trim ((ini.get? "paths" "input").getD [])
  if !path.isEmpty then .ok (Path.child base path)
  else if mode = .patch then .error (.font .noInput)
  else .ok (Path.child base "input.bin")

def offsetOf (ini : Ini) : Mode → Except Fault (Option Int)
  | .patch => return some (← number (← required ini "write" "offset"))
  | .tiles => .ok none

def maxTilesOf (ini : Ini) : Except Fault (Option Int) :=
  let most := ((ini.get? "charset" "max_tiles").or (ini.get? "write" "max_tiles")).getD []
  if isBlankText most then .ok none else return some (← number most)

/-- Refuses a job with numbers that make no sense. -/
def Config.check (c : Config) : Except Fault Config :=
  if c.tileWidth ≤ 0 || c.tileHeight ≤ 0 then .error (.font .tileNotPositive)
  else if c.tileWidth * c.tileHeight % 2 ≠ 0 then .error (.font .tileOdd)
  else if c.fontSize ≤ 0 then .error (.font .sizeNotPositive)
  else if c.offset?.any (· < 0) then .error (.font .offsetNegative)
  else .ok c

/-- The job that a configuration describes, with paths seen from the directory `base`. -/
def Config.ofIni (ini : Ini) (base : Text) : Except Fault Config := do
  let mode ← modeOf ini
  let input ← inputOf ini base mode
  let output := Path.child base (← required ini "paths" "output")
  let codeTable := Path.child base (← required ini "paths" "codetable")
  let font := Path.child base (← required ini "paths" "font")
  let fontIndex ← numberOr ini "font" "index" "0"
  let fontSize ← number (← required ini "font" "size_px")
  let tileWidth ← numberOr ini "tile" "width" "24"
  let tileHeight ← numberOr ini "tile" "height" "24"
  let offset? ← offsetOf ini mode
  let maxTiles? ← maxTilesOf ini
  let leftHigh ← ini.getBool "options" "endian_big"
  let flipX ← ini.getBool "options" "flipx"
  let flipY ← ini.getBool "options" "flipy"
  Config.check ⟨mode, input, output, codeTable, font, fontIndex, fontSize, tileWidth, tileHeight, offset?, maxTiles?,
    leftHigh, flipX, flipY⟩

/-- Reads the job in a configuration file. A file that is not there says nothing. -/
def loadConfig (p : Text) : Job Config := do
  let ini ← match (← get).read p with
    | .ok _ => Job.ofExcept (Ini.read (← Job.readUtf8 p))
    | .error .badPath => throw .badPath
    | .error .unencodable => throw .unencodable
    | .error _ => pure {}
  Job.ofExcept (Config.ofIni ini (Path.parent p))

/-! ## The font tool -/

/-- The characters of a code table: what stands after the equals sign of each line that has one. -/
def tableTexts (t : Text) : List Text :=
  (fileLines t).filterMap fun l => (splitOnce? '=' (trim l)).map fun (_, r) => trim r

def loadTexts (p : Text) : Job (List Text) :=
  return tableTexts (unifyNewlines (Encoding.Utf16.decodeLossy (← Job.readBytes p)))

/-- The first `n` items, all but the last `-n` if `n` is negative. -/
def firstItems {α : Type} (n : Int) (l : List α) : List α := l.take (if n < 0 then l.length + n else n).toNat

def Config.selected (c : Config) (texts : List Text) : List Text := c.maxTiles?.elim texts fun n => firstItems n texts

def Config.base (c : Config) : Nat := (c.offset?.getD 0).toNat

def Config.shape (c : Config) : Shape := ⟨c.tileWidth, c.tileHeight, c.leftHigh, c.flipX, c.flipY⟩

def Config.endOfSlots (c : Config) (n : Nat) : Nat := c.base + n * c.shape.size.toNat

/-- A byte string with zeros at its end, so that it has at least `n` bytes. -/
def extend (data : Bytes) (n : Nat) : Bytes := data ++ List.replicate (n - data.length) 0

/-- How far the slots are filled. -/
structure Filling where
  data : Bytes
  drawn : Nat := 0
  report : Text := []

def Filling.say (f : Filling) (t : Text) : Filling := { f with report := f.report ++ t }

/-- What is said about a tile that cannot be drawn. -/
def drawFaultText : Fault → Text
  | .noGlyph => "no glyph"
  | _ => "index out of range"

/-- Whether the progress is shown after the tile number `i` of `n`. -/
def isShown (i n : Nat) : Bool := i % 32 = 0 || i + 1 = n

/-- Puts the tile number `i` of `n` into the slot at an offset. A slot whose tile cannot be drawn
stays as it is. -/
def fillSlot (draw : Text → Except Fault Bytes) (size n i offset : Nat) (t : Text) (f : Filling) : Filling :=
  let f := match draw t with
    | .ok tile => { f with data := Word.overwrite f.data offset size tile, drawn := f.drawn + 1 }
    | .error e => f.say ("失败字符 " ++ decimal i ++ " '" ++ t ++ "': " ++ drawFaultText e ++ "\n")
  if isShown i n then f.say ("\r" ++ decimal (i + 1) ++ "/" ++ decimal n) else f

/-- Puts tiles into slots from the offset `base` on, beginning with the tile number `i` of `n`. A
slot that is not inside of the bytes ends it. -/
def fillSlots (draw : Text → Except Fault Bytes) (base size n : Nat) : Nat → List Text → Filling → Filling
  | _, [], f => f
  | i, t :: ts, f =>
    let offset := base + i * size
    if f.data.length < offset + size then f.say ("偏移越界: 0x" ++ upperHex 1 offset ++ "\n")
    else fillSlots draw base size n (i + 1) ts (fillSlot draw size n i offset t f)

def template : Text :=
"[mode]
; patch: 把字形写进现有文件（按 offset 顺序覆盖/扩容）
; tiles: 只输出连续 tile 数据（单文件，不读 input，不用 offset）
kind = patch

[paths]
; patch 模式才会读取 input；tiles 模式可留空
input = input.bin
output = output.bin
codetable = code.tbl
font = font.ttf

[font]
; freetype 像素字号（不做下采样）
size_px = 24
; 字体集合（TTC/OTC）时可切换 index
index = 0

[tile]
; 输出 tile 的像素尺寸
width = 24
height = 24

[charset]
; 最大写入/输出多少个字符；留空表示用完整码表长度
max_tiles =

[write]
; 仅 patch 模式使用：从文件的哪个偏移开始写入（支持 0x 十六进制）
offset = 0x0

[options]
; endian_big=false 时每字节为 (右像素<<4)|左像素；true 时为 (左<<4)|右
endian_big = false
flipx = false
flipy = false
"

def missing? (c : Config) : Job (Option Text) := do
  if !(← Job.isThere c.codeTable) then return some ("找不到码表：" ++ c.codeTable)
  if !(← Job.isThere c.font) then return some ("找不到字体：" ++ c.font)
  if c.mode ≠ .patch then return none
  if !(← Job.isThere c.input) then return some ("找不到输入文件：" ++ c.input)
  return none

/-- The bytes that tiles are put into: those of a file, or none. -/
def startBytes (c : Config) : Job Bytes := if c.mode = .patch then Job.readBytes c.input else pure []

def perform (face : Face) (c : Config) : Job Unit := do
  let size := c.shape.size
  Job.printLine ("Tile尺寸: " ++ decimalInt c.tileWidth ++ "x" ++ decimalInt c.tileHeight ++ " 4bpp = " ++ decimalInt size ++
    "字节")
  Job.printLine ("模式: " ++ c.mode.name)
  let texts := c.selected (← loadTexts c.codeTable)
  Job.printLine ("准备写入 " ++ decimal texts.length ++ " 个字符")
  let data ← startBytes c
  let extra ← Job.ofExcept (room (c.endOfSlots texts.length - data.length : Nat))
  Job.print (if c.mode = .patch && 0 < extra then "文件已扩展至 " ++ decimal ((data.length + extra) / 1024) ++ "KB\n" else [])
  let f := fillSlots (tile face c.shape) c.base size.toNat texts.length 0 texts { data := extend data (data.length + extra) }
  Job.printLine f.report
  Job.writeBytes c.output f.data
  Job.printLine ("写入完成，成功率 " ++ decimal f.drawn ++ "/" ++ decimal texts.length)

/-- The job in the configuration of a directory; a fault in it is named without its reason. -/
def jobAt (p : Text) : Job (Option Config) := do
  try return some (← loadConfig p)
  catch _ =>
    Job.print "读取配置失败："
    return none

/-- Does the job that the configuration in the current directory describes, with the given face if
faces can be read. Returns the exit code. -/
def run (face? : Option Face) : Job Nat := do
  let path := Path.child (← get).cwd "font.ini"
  if !(← get).exists_ path then
    Job.writeUtf8 path template
    Job.printLine ("已生成模板配置：" ++ path)
    Job.printLine "请填写路径/参数后再次运行。"
    return 2
  match face? with
  | none =>
    Job.printLine "未找到 freetype-py（import freetype 失败）。"
    Job.printLine "请先安装：pip install freetype-py"
    return 2
  | some face =>
    match ← jobAt path with
    | none => return 2
    | some c =>
      match ← missing? c with
      | some reason =>
        Job.printLine reason
        return 2
      | none =>
        perform face c
        return 0

/-! ## The corpus

All translated texts in one file, to see which characters the font needs. -/

def translationsOf : Json → List Json
  | .arr items => items.filterMap fun v => (v.member? "translation").filter Json.truthy
  | _ => []

/-- The translations in a file. A file that cannot be read has none, and is named. -/
def loadTranslations (p : Text) : Job (List Json) := do
  try
    let doc ← Job.ofExcept (Json.read (← Job.readUtf8 p))
    return translationsOf doc
  catch _ =>
    Job.printLine ("处理文件 " ++ p ++ " 时出错: ")
    return []

def loadAll : List Text → Job (List Json)
  | [] => pure []
  | p :: ps => return (← loadTranslations p) ++ (← loadAll ps)

def documentsBelow (ws : Workspace) (p : Text) : List Text :=
  (ws.walkFiles p).flatMap fun (dir, names) => (names.filter fun n => endsWith (lower n) ".json").map (Path.append dir)

def byteOrderMark : Char := '\uFEFF'

def collectFrom (paths : List Text) (output : Text) : Job Unit := do
  let found ← loadAll paths
  if found.isEmpty then Job.printLine "未找到任何stage=1的translation内容"
  else
    Job.writeUtf8 output []
    let texts ← Job.ofExcept (Document.pieces (.arr found))
    Job.writeUtf8 output (byteOrderMark :: join "\n" texts ++ "\n")
    Job.printLine ("成功从 " ++ decimal paths.length ++ " 个文件中提取 " ++ decimal texts.length ++ " 条翻译到 " ++ output)

def collect (input output : Text) : Job Unit := do
  let paths := documentsBelow (← get) input
  if paths.isEmpty then Job.printLine ("警告: 在目录 " ++ input ++ " 及其子目录中未找到JSON文件")
  else collectFrom paths output

/-- The command line: a directory and a file. Returns the exit code. -/
def runCorpus (args : List Text) : Job Nat := do
  match args with
  | [input, output] =>
    collect input output
    return 0
  | _ =>
    Job.printLine "用法: python extract_translations.py <输入目录> <输出文件>"
    return 1

end Localizer.Font
