import Scaffold.Text.Basic

/-! The catalog of file extensions. A name is the name of a file when the text after its last dot
is the symbol of a listed extension, in any mix of cases. -/
namespace Scaffold

inductive Category
  | audio | video | image | document | spreadsheet | presentation | data
  | archive | executable | code | web | font | system | disc
deriving DecidableEq, Repr

namespace Category

def all : List Category :=
  [.audio, .video, .image, .document, .spreadsheet, .presentation, .data,
   .archive, .executable, .code, .web, .font, .system, .disc]

theorem mem_all (c : Category) : c ∈ all := by cases c <;> decide

def label : Category → String
  | .audio => "audio"
  | .video => "video"
  | .image => "image"
  | .document => "document"
  | .spreadsheet => "spreadsheet"
  | .presentation => "presentation"
  | .data => "data"
  | .archive => "archive"
  | .executable => "executable"
  | .code => "code"
  | .web => "web"
  | .font => "font"
  | .system => "system"
  | .disc => "disc"

def symbols : Category → List String
  | .audio => ["aac", "aif", "aiff", "amr", "ape", "au", "flac", "m4a", "mid", "midi", "mp3", "mpa",
      "ogg", "opus", "ra", "wav", "wma"]
  | .video => ["3gp", "avi", "flv", "h264", "m4v", "mkv", "mov", "mp4", "mpeg", "mpg", "rm", "swf",
      "vob", "webm", "wmv"]
  | .image => ["ai", "bmp", "gif", "heic", "ico", "jpeg", "jpg", "png", "psd", "svg", "tif", "tiff",
      "webp"]
  | .document => ["doc", "docx", "epub", "md", "odt", "pdf", "rtf", "tex", "txt", "wpd"]
  | .spreadsheet => ["csv", "ods", "xls", "xlsm", "xlsx"]
  | .presentation => ["key", "odp", "pps", "ppt", "pptx"]
  | .data => ["dat", "db", "json", "mdb", "sql", "sqlite", "toml", "xml", "yaml", "yml"]
  | .archive => ["7z", "arj", "bz2", "deb", "gz", "pkg", "rar", "rpm", "tar", "tgz", "xz", "z",
      "zip"]
  | .executable => ["apk", "bat", "bin", "cgi", "com", "exe", "jar", "msi", "sh", "wsf"]
  | .code => ["c", "class", "cpp", "cs", "go", "h", "hpp", "java", "js", "kt", "lua", "php", "pl",
      "py", "rb", "rs", "swift", "ts", "vb"]
  | .web => ["asp", "aspx", "css", "htm", "html", "jsp", "rss", "scss", "xhtml"]
  | .font => ["fnt", "fon", "otf", "ttf", "woff", "woff2"]
  | .system => ["bak", "cab", "cfg", "cpl", "cur", "dll", "dmp", "drv", "icns", "ini", "lnk", "log",
      "sys", "tmp"]
  | .disc => ["dmg", "iso", "toast", "vcd"]

end Category

structure Extension where
  category : Category
  symbol : Text
deriving DecidableEq, Repr

namespace Extension

def dotted (e : Extension) : Text := '.' :: e.symbol

def catalog : List Extension :=
  Category.all.flatMap fun category =>
    category.symbols.map fun symbol => ⟨category, symbol.toList⟩

def ofCategory (category : Category) : List Extension :=
  catalog.filter (·.category = category)

theorem lower_symbol {e : Extension} (member : e ∈ catalog) : Text.lower e.symbol = e.symbol := by
  have all : ∀ e ∈ catalog, Text.lower e.symbol = e.symbol := by decide +kernel
  exact all e member

/-- The entry whose symbol is `symbol` up to the case of ASCII letters. -/
def resolve? (symbol : Text) : Option Extension :=
  let lowered := Text.lower symbol
  catalog.find? (·.symbol = lowered)

/-- The entry of a text that has one dot in front of a symbol. -/
def lookup? : Text → Option Extension
  | '.' :: symbol => resolve? symbol
  | _ => none

/-- A text that belongs to no entry of the catalog. -/
structure Unlisted where
  text : Text
deriving DecidableEq, Repr

def resolve (symbol : Text) : Except Unlisted Extension :=
  match resolve? symbol with
  | some e => .ok e
  | none => .error ⟨symbol⟩

/-- The category of a file name, or of an extension with its dot. -/
def categoryOf (name : Text) : Except Unlisted Category :=
  match Text.cutAtLast? '.' name with
  | none => .error ⟨name⟩
  | some (_, suffix) =>
    match lookup? suffix with
    | some e => .ok e.category
    | none => .error ⟨suffix⟩

end Extension

end Scaffold
