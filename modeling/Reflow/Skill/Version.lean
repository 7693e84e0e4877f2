import Reflow.Skill.Template
import Reflow.Text.Integer

/-!
Versions that the pages tell agents to run.

Only a version that was published can be fetched by its number. A development build reports a
version that never was, so the last published one is named in its stead.
-/

namespace Reflow.Skill

def publishedVersion : Text := "0.7.3".toList

/-- The last published version of the fast build, which is numbered on its own. -/
def fastVersion : Text := "0.3.2".toList

def isNumber (t : Text) : Bool := !t.isEmpty && t.all isDecimal

def isPostMark (t : Text) : Bool :=
  match t with
  | 'p' :: 'o' :: 's' :: 't' :: rest => isNumber rest
  | _ => false

/-- The parts of a published version: numbers, the last of several maybe marked. -/
def isReleaseParts : List Text → Bool
  | [] => false
  | [a] => isNumber a
  | [a, b] => isNumber a && (isNumber b || isPostMark b)
  | a :: rest => isNumber a && isReleaseParts rest

/-- The version was published: numbers with dots between them. A line feed at the end does no
harm. -/
def isRelease (version : Text) : Bool :=
  let body := match version.getLast? with
    | some '\n' => version.dropLast
    | _ => version
  isReleaseParts (Text.splitOn '.' body)

def ownVersion (installed : Option Text) : Text :=
  match installed with
  | some v => if isRelease v then v else publishedVersion
  | none => publishedVersion

/-! ## Filling pages in -/

def versionMark : Text := "__FLOWMARK_VERSION__".toList

def fastVersionMark : Text := "__FLOWMARK_RS_VERSION__".toList

def fillUsage (template version : Text) : Text :=
  Text.replaceAll fastVersionMark fastVersion (Text.replaceAll versionMark version template)

def usage (version : Text) : Text := fillUsage usageTemplate version

def setup (version : Text) : Text := Text.replaceAll fastVersionMark version setupTemplate

/-! ## Stamps

Whatever is generated bears the number of the format that it was generated in, so that a later
version can tell what it finds, and an earlier one can leave alone what it does not know. -/

def formatNumber : Nat := 3

def formatStamp : Text := "f03".toList

def stampMark : Text := "format=f".toList

def stampHere? (t : Text) : Option Text :=
  if stampMark.isPrefixOf t then
    let digits := (t.drop stampMark.length).takeWhile isDecimal
    if digits.isEmpty then none else some digits
  else none

/-- The digits of the first stamp in a text. -/
def stamp? : Text → Option Text
  | [] => none
  | c :: cs => (stampHere? (c :: cs)).or (stamp? cs)

/-- A stamp of more digits than a number may have. -/
structure LongStamp where
  digits : Nat
deriving DecidableEq, Repr

def LongStamp.message (e : LongStamp) : Text :=
  "Exceeds the limit (".toList ++ Text.ofInt Text.maxDigits
    ++ " digits) for integer string conversion: value has ".toList ++ Text.ofInt e.digits
    ++ " digits; use sys.set_int_max_str_digits() to increase the limit".toList

/-- The format that a stamp stands for, and 0 without one. -/
def formatOfStamp (stamp : Option Text) : Except LongStamp Nat :=
  match stamp with
  | none => .ok 0
  | some digits =>
    if digits.length ≤ Text.maxDigits then .ok (Text.digitsValue digits)
    else .error ⟨digits.length⟩

def formatOf (t : Text) : Except LongStamp Nat := formatOfStamp (stamp? t)

def isLater (stamp : Option Text) : Except LongStamp Bool :=
  return formatNumber < (← formatOfStamp stamp)

def generatedLine (surface : String) : Text :=
  "<!-- DO NOT EDIT: `flowmark --install-skill` (format=".toList ++ formatStamp
    ++ " surface=".toList ++ surface.toList ++ ") -->".toList

def marked (surface : String) (t : Text) : Text := generatedLine surface ++ ['\n', '\n'] ++ t

def markedAfterFrontMatter (t : Text) : Text :=
  let delimiter : Text := "\n---\n".toList
  let rule : Text := "---\n".toList
  match if rule.isPrefixOf t then Text.cut? delimiter (t.drop rule.length) else none with
  | some (front, body) => rule ++ front ++ delimiter ++ marked "skill-md" body
  | none => marked "skill-md" t

def usageFileOf (template version : Text) : Text :=
  markedAfterFrontMatter (fillUsage template version)

def usageFile (version : Text) : Text := usageFileOf usageTemplate version

def setupFile (version : Text) : Text := marked "skill-reference" (setup version)

end Reflow.Skill
