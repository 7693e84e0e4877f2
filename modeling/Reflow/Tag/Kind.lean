import Reflow.Text.Basic

/-!
Template tags.

Four kinds of tag may stand in prose: template statements, comments and expressions, and HTML
comments. A tag of a kind is everything from its opening delimiter to the next closing delimiter
of that kind.
-/

namespace Reflow

inductive TagKind where
  | statement
  | comment
  | expression
  | htmlComment
deriving DecidableEq, Repr

namespace TagKind

def all : List TagKind := [statement, comment, expression, htmlComment]

def opening : TagKind → Text
  | statement => ['{', '%']
  | comment => ['{', '#']
  | expression => ['{', '{']
  | htmlComment => ['<', '!', '-', '-']

def closing : TagKind → Text
  | statement => ['%', '}']
  | comment => ['#', '}']
  | expression => ['}', '}']
  | htmlComment => ['-', '-', '>']

end TagKind

end Reflow
