import DocComment.Comment.Extract
import DocComment.Text.Lines
import DocComment.Text.Quoted
import DocComment.Text.Utf8

/-! Comments from source files. A file is read as strict UTF-8, its line endings are
unified, and its comments are taken out in order; what keeps a file from being read
is told with its path. -/

namespace DocComment

inductive SourceFile where
  | missing
  | directory
  | bytes (content : List UInt8)

/-- A file that holds a text in UTF-8. -/
def SourceFile.ofText (text : String) : SourceFile :=
  .bytes (text.toList.flatMap String.utf8EncodeChar)

inductive SourceError where
  | missing (path : String)
  | directory (path : String)
  | encoding (path : String) (fault : Text.Utf8.Fault)
  deriving DecidableEq, Repr

namespace Text.Utf8

def Reason.message : Reason → String
  | .invalidStart => "invalid start byte"
  | .invalidContinuation => "invalid continuation byte"
  | .unexpectedEnd => "unexpected end of data"

/-- A bad sequence of one byte is told by the byte, a longer one by its extent. -/
def Fault.message (f : Fault) : String :=
  let place :=
    if f.length = 1 then
      "byte 0x" ++ String.ofList (hex 2 f.lead.toNat) ++ " in position " ++ toString f.position
    else
      "bytes in position " ++ toString f.position ++ "-" ++ toString (f.position + f.length - 1)
  "'utf-8' codec can't decode " ++ place ++ ": " ++ f.reason.message

end Text.Utf8

def SourceError.message : SourceError → String
  | .missing path =>
    "Cannot read source file " ++ path ++ ": [Errno 2] No such file or directory: " ++
      String.ofList (Text.quoted path.toList)
  | .directory path =>
    "Cannot read source file " ++ path ++ ": [Errno 21] Is a directory: " ++
      String.ofList (Text.quoted path.toList)
  | .encoding path fault => "Cannot read source file " ++ path ++ ": " ++ fault.message

namespace Comment

/-- A text with its breaks converted. -/
def withBreaks (text : String) : String := String.ofList (Text.unifyBreaks text.toList)

def sourceText (path : String) : SourceFile → Except SourceError String
  | .missing => .error (.missing path)
  | .directory => .error (.directory path)
  | .bytes content =>
    match Text.Utf8.decode content with
    | .ok s => .ok (String.ofList (Text.unifyBreaks s))
    | .error fault => .error (.encoding path fault)

def ofSource (path : String) (file : SourceFile) : Except SourceError (List String) :=
  (sourceText path file).map extract

end Comment

end DocComment
