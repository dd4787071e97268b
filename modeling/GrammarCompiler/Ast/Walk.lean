import GrammarCompiler.Ast.Basic

/-!
# Walking over elements

`nodes` lists an element and everything below it, each element before what it contains.
`mapOptions` changes the options of elements in the same order, with a state that is handed
from one to the next. The two ends of a range are part of the range and not elements of their
own.
-/

namespace GrammarCompiler

inductive NodeKind where
  | block
  | ruleRef
  | tokenRef
  | quotation
  | range
  | wildcard
  | not
  | set
  | optional
  | closure
  | positiveClosure
  | assign
  | plusAssign
  | action
  | predicate
  | command
  | epsilon
deriving Repr, DecidableEq

def Suffix.kind : Suffix → NodeKind
  | .optional => .optional
  | .closure => .closure
  | .positiveClosure => .positiveClosure

namespace Element

def kind : Element → NodeKind
  | block .. => .block
  | ruleRef .. => .ruleRef
  | tokenRef .. => .tokenRef
  | quotation .. => .quotation
  | range .. => .range
  | wildcard .. => .wildcard
  | not .. => .not
  | set .. => .set
  | suffixed suffix .. => suffix.kind
  | labeled isList .. => if isList then .plusAssign else .assign
  | action .. => .action
  | predicate .. => .predicate
  | command .. => .command
  | epsilon .. => .epsilon

def extent : Element → Extent
  | block _ _ e => e
  | ruleRef r => r.extent
  | tokenRef _ _ e => e
  | quotation q => q.extent
  | range _ _ e => e
  | wildcard _ e => e
  | not _ e => e
  | set _ e => e
  | suffixed _ _ _ e => e
  | labeled _ _ _ _ e => e
  | action s => s.extent
  | predicate s => s.extent
  | command _ _ e => e
  | epsilon e => e

/-- The options of an element, for the kinds that can have some. -/
def options? : Element → Option Options
  | block _ o _ => some o
  | ruleRef r => some r.options
  | tokenRef _ o _ => some o
  | quotation q => some q.options
  | wildcard o _ => some o
  | predicate s => some s.options
  | _ => none

def option? (element : Element) (key : String) : Option String :=
  element.options?.bind (·.get? key)

/-- The rule reference that an element stands for, seen through a label. -/
def asRuleRef? : Element → Option RuleRef
  | ruleRef r => some r
  | labeled _ _ _ (ruleRef r) _ => some r
  | _ => none

/-- Whether an element is a reference to the rule `name`, with or without a label. -/
def refersTo (element : Element) (name : String) : Bool :=
  element.asRuleRef?.any (·.name == name)

end Element

/-! ## Listing -/

mutual
/-- An element and everything below it. -/
def Element.nodes : Element → List Element
  | .block alts o e => .block alts o e :: Alt.listNodes alts
  | .not operand e => .not operand e :: operand.nodes
  | .set elements e => .set elements e :: Element.listNodes elements
  | .suffixed s g element e => .suffixed s g element e :: element.nodes
  | .labeled l n t element e => .labeled l n t element e :: element.nodes
  | .ruleRef r => [.ruleRef r]
  | .tokenRef n o e => [.tokenRef n o e]
  | .quotation q => [.quotation q]
  | .range f l e => [.range f l e]
  | .wildcard o e => [.wildcard o e]
  | .action s => [.action s]
  | .predicate s => [.predicate s]
  | .command n a e => [.command n a e]
  | .epsilon e => [.epsilon e]

def Element.listNodes : List Element → List Element
  | [] => []
  | e :: es => e.nodes ++ Element.listNodes es

def Alt.nodes : Alt → List Element
  | ⟨elements, _, _, _, _⟩ => Element.listNodes elements

def Alt.listNodes : List Alt → List Element
  | [] => []
  | a :: as => a.nodes ++ Alt.listNodes as
end

theorem mem_nodes_self (e : Element) : e ∈ e.nodes := by
  cases e <;> exact List.mem_cons_self ..

theorem mem_listNodes {e : Element} {es : List Element} (h : e ∈ es) : e ∈ Element.listNodes es := by
  induction es with
  | nil => cases h
  | cons first es ih =>
      rcases List.mem_cons.mp h with rfl | h
      · exact List.mem_append_left _ (mem_nodes_self e)
      · exact List.mem_append_right _ (ih h)

def RuleDef.nodes (rule : RuleDef) : List Element :=
  Alt.listNodes rule.alts

namespace Alt

/-- An alternative in which nothing is written. -/
def isEpsilon (alt : Alt) : Bool :=
  alt.elements.all fun
    | .epsilon _ => true
    | _ => false

def nodesOfKind (alt : Alt) (kind : NodeKind) : List Element :=
  alt.nodes.filter (·.kind = kind)

/-- Where option lists stand on alternatives, this one and those inside it, and on references.
The options of predicates and blocks are left out; they belong to the text around them. -/
def optionExtents (alt : Alt) : List Extent :=
  alt.options.extent.toList ++ alt.nodes.flatMap fun
    | .ruleRef r => r.options.extent.toList
    | .tokenRef _ o _ => o.extent.toList
    | .quotation q => q.options.extent.toList
    | .wildcard o _ => o.extent.toList
    | .block alts _ _ => alts.flatMap fun a => a.options.extent.toList
    | _ => []

end Alt

/-! ## Changing options

Elements change during compilation in their options only. The change is a function that sees
each element and says which options it gets; elements that cannot have options are shown to it
as well, but keep their shape. -/

/-- The options of an element, none for the kinds that cannot have any. -/
def Element.ownOptions (element : Element) : Options :=
  element.options?.getD .none

mutual
/-- Gives an element and everything below it new options. -/
def Element.mapOptions {σ : Type} (f : σ → Element → σ × Options) (s : σ) :
    Element → σ × Element
  | .block alts o e =>
    let (s, options) := f s (.block alts o e)
    let (s, alts) := Alt.mapListOptions f s alts
    (s, .block alts options e)
  | .not operand e =>
    let (s, _) := f s (.not operand e)
    let (s, operand) := operand.mapOptions f s
    (s, .not operand e)
  | .set elements e =>
    let (s, _) := f s (.set elements e)
    let (s, elements) := Element.mapListOptions f s elements
    (s, .set elements e)
  | .suffixed suffix greedy element e =>
    let (s, _) := f s (.suffixed suffix greedy element e)
    let (s, element) := element.mapOptions f s
    (s, .suffixed suffix greedy element e)
  | .labeled isList label token element e =>
    let (s, _) := f s (.labeled isList label token element e)
    let (s, element) := element.mapOptions f s
    (s, .labeled isList label token element e)
  | .ruleRef r => let (s, options) := f s (.ruleRef r); (s, .ruleRef { r with options })
  | .tokenRef name o e =>
    let (s, options) := f s (.tokenRef name o e)
    (s, .tokenRef name options e)
  | .quotation q => let (s, options) := f s (.quotation q); (s, .quotation { q with options })
  | .wildcard o e => let (s, options) := f s (.wildcard o e); (s, .wildcard options e)
  | .predicate c => let (s, options) := f s (.predicate c); (s, .predicate { c with options })
  | .range a b e => let (s, _) := f s (.range a b e); (s, .range a b e)
  | .action c => let (s, _) := f s (.action c); (s, .action c)
  | .command name arg e => let (s, _) := f s (.command name arg e); (s, .command name arg e)
  | .epsilon e => let (s, _) := f s (.epsilon e); (s, .epsilon e)

def Element.mapListOptions {σ : Type} (f : σ → Element → σ × Options) (s : σ) :
    List Element → σ × List Element
  | [] => (s, [])
  | e :: es =>
    let (s, e) := e.mapOptions f s
    let (s, es) := Element.mapListOptions f s es
    (s, e :: es)

/-- Gives everything in an alternative new options; the alternative keeps its own. -/
def Alt.mapOptions {σ : Type} (f : σ → Element → σ × Options) (s : σ) : Alt → σ × Alt
  | ⟨elements, options, label, extent, info⟩ =>
    let (s, elements) := Element.mapListOptions f s elements
    (s, ⟨elements, options, label, extent, info⟩)

def Alt.mapListOptions {σ : Type} (f : σ → Element → σ × Options) (s : σ) :
    List Alt → σ × List Alt
  | [] => (s, [])
  | a :: as =>
    let (s, a) := a.mapOptions f s
    let (s, as) := Alt.mapListOptions f s as
    (s, a :: as)
end

def RuleDef.withAlts (rule : RuleDef) (alts : List Alt) : RuleDef :=
  { rule with block := { rule.block with alts } }

def RuleDef.mapOptions {σ : Type} (f : σ → Element → σ × Options) (s : σ) (rule : RuleDef) :
    σ × RuleDef :=
  let (s, alts) := Alt.mapListOptions f s rule.alts
  (s, rule.withAlts alts)

/-- Sets an option of the element that comes `n`-th in a rule, counted from 0. The flag tells
whether there is such an element and it can have options. -/
def RuleDef.setOption (rule : RuleDef) (n : Nat) (key value : String) : Bool × RuleDef :=
  let change (state : Nat × Bool) (element : Element) : (Nat × Bool) × Options :=
    let (k, done) := state
    if k = n then ((k + 1, element.options?.isSome), element.ownOptions.set key value)
    else ((k + 1, done), element.ownOptions)
  let ((_, done), rule) := rule.mapOptions change (0, false)
  (done, rule)

/-- Sets an option of the alternative `n` of a rule, counted from 0, if there is one. -/
def RuleDef.setAltOption (rule : RuleDef) (n : Nat) (key value : String) : RuleDef :=
  rule.withAlts (rule.alts.modify n fun alt => { alt with options := alt.options.set key value })

end GrammarCompiler
