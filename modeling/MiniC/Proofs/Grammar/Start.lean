import MiniC.Proofs.Grammar.Derivation

/-!
# How derived texts begin

The first word of a text says what the text can be: each kind of statement but the last begins with
a word of its own, and no term begins with one of those.
-/

namespace MiniC.Grammar

def StartsPrimary : Token → Prop
  | .type _ => False
  | .keyword _ => False
  | .symbol s => s = .leftParen
  | _ => True

def StartsTerm (t : Token) : Prop :=
  StartsPrimary t ∨ ∃ op : UnaryOp, t = .symbol op.symbol

def StartsStatement : Token → Prop
  | .type _ => True
  | .keyword k => k ≠ .elseWord
  | .symbol s => s = .leftBrace ∨ StartsTerm (.symbol s)
  | _ => True

theorem not_startsTerm_type (k : TypeName) : ¬StartsTerm (.type k) := by
  rintro (h | ⟨_, ⟨⟩⟩)
  exact h

theorem not_startsTerm_keyword (k : Keyword) : ¬StartsTerm (.keyword k) := by
  rintro (h | ⟨_, ⟨⟩⟩)
  exact h

theorem StartsTerm.symbol (h : StartsTerm (.symbol s)) :
    s = .leftParen ∨ ∃ op : UnaryOp, s = op.symbol :=
  h.imp id fun ⟨op, hop⟩ => ⟨op, Token.symbol.inj hop⟩

theorem not_startsTerm_closing (h : s ∈ [Symbol.leftBrace, .rightBrace, .semicolon, .rightParen]) :
    ¬StartsTerm (.symbol s) := by
  intro hs
  rcases hs.symbol with rfl | ⟨op, rfl⟩
  · simp at h
  · cases op <;> simp [UnaryOp.symbol] at h

theorem StartsTerm.startsStatement (h : StartsTerm t) : StartsStatement t := by
  cases t with
  | symbol s => exact .inr h
  | keyword k => exact (not_startsTerm_keyword k h).elim
  | _ => trivial

theorem startsPrimary_literal (v : Value) : StartsPrimary v.literal := by
  cases v <;> trivial

theorem opBefore?_of_startsPrimary (h : StartsPrimary t) : opBefore? t = none := by
  cases t with
  | symbol s => cases s <;> first | rfl | cases h
  | _ => rfl

def Nonterminal.Nullable : Nonterminal → Prop
  | program => True
  | functions => True
  | listed _ => True
  | separated item => item.Nullable
  | statements => True
  | operations _ => True
  | _ => False

def Nonterminal.Starts : Nonterminal → Token → Prop
  | program, t => ∃ k, t = .type k
  | functions, t => ∃ k, t = .type k
  | function, t => ∃ k, t = .type k
  | parameter, t => ∃ k, t = .type k
  | listed item, t => item.Nullable ∨ item.Starts t
  | separated item, t => item.Nullable ∨ item.Starts t
  | block, t => t = .symbol .leftBrace
  | statements, t => StartsStatement t
  | statement, t => StartsStatement t
  | declaration, t => ∃ k, t = .type k
  | initializer, t => StartsStatement t
  | effect, t => StartsTerm t
  | term .primary, t => StartsPrimary t
  | term _, t => StartsTerm t
  | operations level, t => ∃ op : BinaryOp, op.level = level ∧ t = .symbol op.symbol

/-- What the first word of a text is, and that there is one. -/
def Nonterminal.Begins (n : Nonterminal) : List Token → Prop
  | [] => n.Nullable
  | t :: _ => n.Starts t

theorem Nonterminal.Begins.mono {n k : Nonterminal} (h : n.Begins ts)
    (hstarts : ∀ t, n.Starts t → k.Starts t) (hnull : n.Nullable → k.Nullable) : k.Begins ts := by
  cases ts with
  | nil => exact hnull h
  | cons t ts => exact hstarts t h

theorem Nonterminal.Begins.append {n k : Nonterminal} (h : n.Begins ts) (hnull : ¬n.Nullable)
    (hstarts : ∀ t, n.Starts t → k.Starts t) (us : List Token) : k.Begins (ts ++ us) := by
  cases ts with
  | nil => exact absurd h hnull
  | cons t ts => exact hstarts t h

theorem type_startsStatement (h : ∃ k, t = .type k) : StartsStatement t := by
  obtain ⟨k, rfl⟩ := h
  trivial

theorem Derives.begins (h : Derives n ts t) : n.Begins ts := by
  induction h with
  | program _ ih => exact ih.mono (fun _ h => h) id
  | noFunction => trivial
  | functions _ _ ih _ => exact ih.append (k := .functions) id (fun _ h => h) _
  | function k => exact ⟨k, rfl⟩
  | parameter k => exact ⟨k, rfl⟩
  | noItem => trivial
  | items _ ih => exact ih.mono (fun _ h => h) fun _ => trivial
  | lastItem _ ih => exact ih.mono (fun _ h => .inr h) id
  | @moreItems item ts _ _ _ _ _ ih _ =>
    cases ts with
    | nil => exact .inl ih
    | cons => exact .inr ih
  | block => exact rfl
  | noStatement => trivial
  | statements _ _ ih _ => exact ih.append (k := .statements) id (fun _ h => h) _
  | declaration k => exact ⟨k, rfl⟩
  | initialized k => exact ⟨k, rfl⟩
  | effect _ ih => exact ih.append id (fun _ h => h) _
  | declare _ ih => exact ih.mono (fun _ => type_startsStatement) id
  | nested _ ih => exact ih.mono (by rintro _ rfl; exact .inl rfl) id
  | ifThen => exact nofun
  | ifElse => exact nofun
  | whileLoop => exact nofun
  | forLoop => exact nofun
  | returnNothing => exact nofun
  | returnValue => exact nofun
  | print => exact nofun
  | perform _ ih => exact ih.mono (fun _ => StartsTerm.startsStatement) id
  | beginDeclared _ ih => exact ih.mono (fun _ => type_startsStatement) id
  | beginEffect _ ih => exact ih.mono (fun _ => StartsTerm.startsStatement) id
  | assign => exact .inl trivial
  | operation _ ih => exact ih.mono (fun _ h => h) id
  | chain l _ _ _ ih _ => exact ih.append id (by cases l <;> exact fun _ h => h) _
  | noOperation => trivial
  | operations op => exact ⟨op, rfl, rfl⟩
  | single _ ih => exact ih.mono (fun _ h => h) id
  | compare _ _ _ _ ih _ => exact ih.append id (fun _ h => h) _
  | plain _ ih => exact ih.mono (fun _ => Or.inl) id
  | before op => exact .inr ⟨op, rfl⟩
  | after _ _ _ ih => exact ih.append id (fun _ => Or.inl) _
  | call => trivial
  | literal v => exact startsPrimary_literal v
  | parenthesized => exact rfl
  | var => trivial

theorem Derives.head? (h : Derives n ts t) (hnull : ¬n.Nullable) :
    ∃ w, ts.head? = some w ∧ n.Starts w := by
  have hbegins := h.begins
  cases ts with
  | nil => exact absurd hbegins hnull
  | cons w us => exact ⟨w, rfl, hbegins⟩

theorem Derives.starts (h : Derives n ts t) (hw : ts.head? = some w) : n.Starts w := by
  have hbegins := h.begins
  cases ts with
  | nil => cases hw
  | cons u us =>
    obtain rfl := Option.some.inj hw
    exact hbegins

theorem Derives.ne_nil (h : Derives n ts t) (hnull : ¬n.Nullable) : ts ≠ [] := by
  rintro rfl
  exact hnull h.begins

end MiniC.Grammar
