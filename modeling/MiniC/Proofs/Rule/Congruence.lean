import MiniC.Rule

/-!
# What all rules have in common

`Rule.Congruence`: a relation between rules that holds of the steps of reading and is kept by the
ways of putting rules together. A whole grammar can then be related to itself by following its
rules once, whatever the relation is. The relation may be a proposition, or data that comes with a
pair of rules.
-/

namespace MiniC.Rule

inductive Each (R : ∀ {α : Type}, Rule α → Rule α → Sort u) {α : Type} :
    List (Rule α) → List (Rule α) → Type u
  | nil : Each R [] []
  | cons : R rule rule' → Each R rules rules' → Each R (rule :: rules) (rule' :: rules')

/-- The relation holds of each step of reading with itself, and passes from the parts of a rule to
the whole. Nothing is said of `single`, which tells of what has been read before it. -/
structure Congruence (R : ∀ {α : Type}, Rule α → Rule α → Sort u) where
  pure : ∀ {α : Type} (a : α), R (pure a) (pure a)
  refuse : ∀ {α : Type} (expected : List String),
    R (Rule.refuse expected : Rule α) (Rule.refuse expected)
  bind : ∀ {α β : Type} {first first' : Rule α} {second second' : α → Rule β},
    R first first' → (∀ a, R (second a) (second' a)) → R (first >>= second) (first' >>= second')
  eat : ∀ token, R (Rule.eat token) (Rule.eat token)
  eat? : ∀ {α : Type} (view : Token → Option α), R (Rule.eat? view) (Rule.eat? view)
  atEnd : R Rule.atEnd Rule.atEnd
  firstOf : ∀ {α : Type} {rules rules' : List (Rule α)},
    Each R rules rules' → R (Rule.firstOf rules) (Rule.firstOf rules')
  optional : ∀ {α : Type} {rule rule' : Rule α},
    R rule rule' → R (Rule.optional rule) (Rule.optional rule')
  fix : ∀ {α : Type} {body body' : Rule α → Rule α},
    (∀ inner inner', R inner inner' → R (body inner) (body' inner')) →
    R (Rule.fix body) (Rule.fix body')

namespace Congruence

variable {R : ∀ {α : Type}, Rule α → Rule α → Sort u} (hR : Congruence R) {α β : Type}
  {rule rule' : Rule α}

def ifEat (token : Token) {yes yes' no no' : Rule α} (hy : R yes yes') (hn : R no no') :
    R (do if ← Rule.eat token then yes else no) (do if ← Rule.eat token then yes' else no') :=
  hR.bind (hR.eat token) fun
    | true => hy
    | false => hn

def ifAtEnd {yes yes' no no' : Rule α} (hy : R yes yes') (hn : R no no') :
    R (do if ← Rule.atEnd then yes else no) (do if ← Rule.atEnd then yes' else no') :=
  hR.bind hR.atEnd fun
    | true => hy
    | false => hn

def expect (token : Token) (description : String) :
    R (Rule.expect token description) (Rule.expect token description) :=
  hR.ifEat token (hR.pure ()) (hR.refuse [description])

def one (view : Token → Option α) (description : String) :
    R (Rule.one view description) (Rule.one view description) :=
  hR.bind (hR.eat? view) fun
    | some a => hR.pure a
    | none => hR.refuse [description]

def items (h : R rule rule') (closing : Symbol) :
    R (Rule.items rule closing) (Rule.items rule' closing) :=
  hR.fix fun _ _ hmore => hR.bind h fun a =>
    hR.ifEat (.symbol .comma) (hR.bind hmore fun as => hR.pure (a :: as))
      (hR.ifEat (.symbol closing) (hR.pure [a]) (hR.refuse _))

def commaSeparated (h : R rule rule') (closing : Symbol) :
    R (Rule.commaSeparated rule closing) (Rule.commaSeparated rule' closing) :=
  hR.ifEat (.symbol closing) (hR.pure []) (hR.items h closing)

def operations (h : R rule rule') (operator : Token → Option β) :
    R (Rule.operations rule operator) (Rule.operations rule' operator) :=
  hR.fix fun _ _ hmore => hR.bind (hR.eat? operator) fun
    | none => hR.pure []
    | some op => hR.bind h fun right => hR.bind hmore fun others => hR.pure ((op, right) :: others)

def leftChain (h : R rule rule') (operator : Token → Option β) (join : α → β → α → α) :
    R (Rule.leftChain rule operator join) (Rule.leftChain rule' operator join) :=
  hR.bind h fun first => hR.bind (hR.operations h operator) fun others =>
    hR.pure (others.foldl (fun left (op, right) => join left op right) first)

end Congruence

end MiniC.Rule
