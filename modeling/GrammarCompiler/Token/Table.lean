import GrammarCompiler.Token.Replay
import GrammarCompiler.TokenTree.Print

/-!
# The token table

All tokens of a compilation in one sequence: those of the grammar, of the grammars it imports,
and of rules made up during compilation. A token's index is its place in the sequence and
never changes. Its kind and text never change either; only the place it is shown at may be
moved to that of another token (`relocate`), so that messages about made-up rules point at
what the author wrote.
-/

namespace GrammarCompiler

open Text (Position)

/-- Tokens, and the names of the sources they come from. -/
structure TokenTable where
  tokens : Array Token := #[]
  sources : Array String := #[]
deriving Repr, DecidableEq

namespace TokenTable

def empty : TokenTable := {}

def size (table : TokenTable) : Nat :=
  table.tokens.size

def get? (table : TokenTable) (index : Nat) : Option Token :=
  table.tokens[index]?

def sourceName (table : TokenTable) (source : Nat) : String :=
  (table.sources[source]?).getD "<unknown>"

/-! ## Adding tokens -/

def push (table : TokenTable) (source : Nat) (kind : TokenKind) (text : String) (joint : Bool)
    (position : Position) : TokenTable :=
  { table with tokens := table.tokens.push ⟨table.size, kind, text, joint, source, position⟩ }

def pushLeaf (table : TokenTable) (source : Nat) (token : Leaf) (position : Position) :
    TokenTable :=
  match token with
  | .ident text => table.push source .ident text false position
  | .literal text => table.push source .literal text false position
  | .punct char joint => table.push source .punct char.toString joint position

mutual
def pushTree (source : Nat) : TokenTree → TokenTable → TokenTable
  | .leaf token position, table => table.pushLeaf source token position
  | .group .parenthesis opened closed body, table =>
    (pushTrees source body (table.push source .openParen "(" false opened)).push source
      .closeParen ")" false closed
  | .group .brace opened _ body, table =>
    table.push source .action
      (TokenTree.delimited .brace (TokenTree.print body) body.isEmpty) false opened
  | .group .bracket opened _ body, table =>
    table.push source .argAction
      (TokenTree.delimited .bracket (TokenTree.print body) body.isEmpty) false opened

def pushTrees (source : Nat) : List TokenTree → TokenTable → TokenTable
  | [], table => table
  | t :: ts, table => pushTrees source ts (pushTree source t table)
end

def addSource (table : TokenTable) (name : String) (trees : List TokenTree) : TokenTable :=
  pushTrees table.sources.size trees { table with sources := table.sources.push name }

/-- Adds the tokens of another table behind those of this one, renumbered to their new places.
The size of this table is the distance by which they move. -/
def append (table other : TokenTable) : TokenTable :=
  let moved := other.tokens.map fun t =>
    { t with index := t.index + table.size, source := t.source + table.sources.size }
  { tokens := table.tokens ++ moved, sources := table.sources ++ other.sources }

/-- Takes in the tokens of another table, and tells by how far they have moved. -/
def absorb (table other : TokenTable) : TokenTable × Nat :=
  (table.append other, table.size)

/-! ## Moving tokens -/

/-- Shows the token `index` at the place of the token `origin`, if there is one. -/
def relocate (table : TokenTable) (index origin : Nat) : TokenTable :=
  match table.get? origin with
  | none => table
  | some there =>
    { table with
      tokens := table.tokens.modify index fun t =>
        { t with source := there.source, position := there.position } }

/-! ## Replaying -/

def text (table : TokenTable) (start stop : Nat) : String :=
  (Replay.empty.tokens ((table.tokens.toList.take (stop + 1)).drop start)).text

end TokenTable

end GrammarCompiler
