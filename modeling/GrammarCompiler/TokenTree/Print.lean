import GrammarCompiler.TokenTree.Basic

/-!
# Token trees as text

Trees are separated by one space, except that nothing follows joint punctuation. Groups in
parentheses and brackets are written without padding, groups in braces with a space on either
side; an empty pair of braces keeps one space.
-/

namespace GrammarCompiler

def Leaf.text : Leaf → String
  | .ident text => text
  | .literal text => text
  | .punct char _ => char.toString

namespace TokenTree

/-- Whether the next tree follows without a space. -/
def isJoint : TokenTree → Bool
  | leaf (.punct _ joint) _ => joint
  | _ => false

def delimited (delimiter : Delimiter) (body : String) (isEmpty : Bool) : String :=
  match delimiter with
  | .parenthesis => "(" ++ body ++ ")"
  | .bracket => "[" ++ body ++ "]"
  | .brace => "\x7b " ++ body ++ (if isEmpty then "\x7d" else " \x7d")

mutual
def text : TokenTree → String
  | leaf token _ => token.text
  | group delimiter _ _ body => delimited delimiter (texts "" body) body.isEmpty

def texts (separator : String) : List TokenTree → String
  | [] => ""
  | t :: ts => separator ++ text t ++ texts (if t.isJoint then "" else " ") ts
end

def print (trees : List TokenTree) : String :=
  texts "" trees

end TokenTree

end GrammarCompiler
