import KolegaCode.Lib.Text
import KolegaCode.Hashline.Hash

/-!
# Hashline — read results for another protocol

`strip_hashline_read_output`: a line `12#HK:text` of an old read result becomes `text`, so that a
model working under another edit protocol does not see the anchors.
-/

namespace KolegaCode.Hashline

open Text (isDecimal splitlinesKeepends)

/-- What the pattern of `strip_hashline_read_output` finds in a line: the indent, the line number
and the content.  Spaces, `>`, digits and `#` exclude each other, so each part is as long as it
can be. -/
def matchAnchor (body : List Char) : Option (List Char × List Char × List Char) :=
  let indent := body.takeWhile isSpace
  let rest := body.dropWhile isSpace
  let rest :=
    if ">>>".toList.isPrefixOf rest ∧ (rest.drop 3).head?.any isSpace then
      (rest.drop 3).dropWhile isSpace
    else rest
  let lineNumber := rest.takeWhile isDecimal
  match lineNumber, rest.dropWhile isDecimal with
  | _ :: _, '#' :: a :: b :: ':' :: content =>
      if alphabet.contains a && alphabet.contains b then some (indent, lineNumber, content) else none
  | _, _ => none

/-- `strip_hashline_read_output`. -/
def stripHashlineReadOutput (text : String) (search : Bool) : String :=
  String.ofList <| (splitlinesKeepends text.toList).flatMap fun line =>
    let ending := if line.getLast? = some '\n' then ['\n'] else []
    let body := if line.getLast? = some '\n' then line.dropLast else line
    match matchAnchor body with
    | none => line
    | some (indent, lineNumber, content) =>
        if search then indent ++ "Line ".toList ++ lineNumber ++ ": ".toList ++ content ++ ending
        else indent ++ content ++ ending

example : stripHashlineReadOutput "  7#HK:return x\r\n# a.py\n" false = "  return x\r\n# a.py\n" := by
  decide

end KolegaCode.Hashline
