import Rearrange.Report
import Rearrange.Token

namespace Rearrange

inductive Fault where
  /-- Rejects one way of reading the text; another way is taken instead. -/
  | internal
  | unexpectedEnd
  | expectedEnd
  | unexpectedToken (expected : List TokenKind) (found : TokenKind)
  | invalidNumber
  | unclosedParen (opening : Bool)
  | chainedEquality
deriving DecidableEq, Repr

namespace Fault

open Report (highlight)

def report : Fault → Report
  | internal => {
      message := "an internal non-fatal error occurred while parsing"
      labels := ["here"]
      help := some "you should never see this error; please report this as a bug" }
  | unexpectedEnd => {
      message := "unexpected end of input"
      labels := ["you might need to add another " ++ highlight "expression" ++ " here"]
      help := none }
  | expectedEnd => {
      message := "expected end of input"
      labels := ["I could not understand the remaining " ++ highlight "input" ++ " here"]
      help := none }
  | unexpectedToken expected found => {
      message := "unexpected token"
      labels := ["expected one of: " ++ ", ".intercalate (expected.map TokenKind.label)]
      help := some ("found " ++ found.label) }
  | invalidNumber => {
      message := "invalid number literal"
      labels := ["this number"]
      help := none }
  | unclosedParen opening => {
      message := "unclosed parenthesis"
      labels := ["this parenthesis"]
      help := some <|
        if opening then "add a closing parenthesis `" ++ highlight ")" ++ "` somewhere after this"
        else "add an opening parenthesis `" ++ highlight "(" ++ "` somewhere before this" }
  | chainedEquality => {
      message := "equations can only contain a single `=`"
      labels := ["first `=` here", "then another `=` here"]
      help := some ("split this into " ++ highlight "separate" ++ " equations") }

end Fault

end Rearrange
