import FormatFuzz.Expr.Parser

/-!
# The grammar of expressions

`Derives p ls x` says that the lexemes `ls` form a phrase of kind `p` whose tree is `x`. The rules
name no reader: operators are listed by rank, chains grow to the left, and words that mean something
else do not start a name. What can continue a phrase is measured by `strength`, so that a phrase is
complete in front of every lexeme that is weaker than it.
-/

set_option autoImplicit false

namespace FormatFuzz.Expr

inductive Rank.Spells : Rank → Lexeme → BinaryOp → Prop
  | or : Spells .disjunction (.symbol .or) .or
  | orWord : Spells .disjunction (.word (Text.utf8 "or")) .or
  | and : Spells .conjunction (.symbol .and) .and
  | andWord : Spells .conjunction (.word (Text.utf8 "and")) .and
  | eq : Spells .comparison (.symbol .eq) .eq
  | ne : Spells .comparison (.symbol .ne) .ne
  | lt : Spells .comparison (.symbol .lt) .lt
  | le : Spells .comparison (.symbol .le) .le
  | gt : Spells .comparison (.symbol .gt) .gt
  | ge : Spells .comparison (.symbol .ge) .ge
  | bitOr : Spells .bitOr (.symbol .bar) .bitOr
  | bitXor : Spells .bitXor (.symbol .caret) .bitXor
  | bitAnd : Spells .bitAnd (.symbol .amp) .bitAnd
  | shl : Spells .shift (.symbol .shl) .shl
  | shr : Spells .shift (.symbol .shr) .shr
  | add : Spells .sum (.symbol .plus) .add
  | sub : Spells .sum (.symbol .minus) .sub
  | mul : Spells .product (.symbol .star) .mul
  | div : Spells .product (.symbol .slash) .div
  | mod : Spells .product (.symbol .percent) .mod

inductive SpellsSign : Lexeme → UnaryOp → Prop
  | neg : SpellsSign (.symbol .minus) .neg
  | compl : SpellsSign (.symbol .tilde) .compl
  | not : SpellsSign (.symbol .bang) .not

/-- Kinds of phrases, loosest first; `elements` is what stands between the brackets of a list. -/
inductive Phrase where
  | conditional
  | chain (r : Rank)
  | negation
  | signed
  | postfixed
  | primary
  | elements
  deriving DecidableEq, Repr

def Rank.joins : Rank → Phrase
  | .disjunction => .chain .conjunction
  | .conjunction => .negation
  | .comparison => .chain .bitOr
  | .bitOr => .chain .bitXor
  | .bitXor => .chain .bitAnd
  | .bitAnd => .chain .shift
  | .shift => .chain .sum
  | .sum => .chain .product
  | .product => .signed

def keywords : List String := ["and", "or", "not", "true", "false"]

def pathLexemes (ws : List (List UInt8)) : List Lexeme :=
  ws.flatMap fun w => [.symbol .scope, .word w]

/-- The lexemes that form a phrase, and its tree. -/
inductive Derives : Phrase → List Lexeme → Expr → Prop
  | plain {ls : List Lexeme} {x : Expr} (h : Derives (.chain .disjunction) ls x) :
      Derives .conditional ls x
  | cond {cs as bs : List Lexeme} {c a b : Expr} (hc : Derives (.chain .disjunction) cs c)
      (ha : Derives .conditional as a) (hb : Derives .conditional bs b) :
      Derives .conditional (cs ++ .symbol .question :: (as ++ .symbol .colon :: bs)) (.cond c a b)
  | single {r : Rank} {ls : List Lexeme} {x : Expr} (h : Derives r.joins ls x) :
      Derives (.chain r) ls x
  | joined {r : Rank} {ls rs : List Lexeme} {l : Lexeme} {op : BinaryOp} {x y : Expr}
      (hx : Derives (.chain r) ls x) (hl : r.Spells l op) (hy : Derives r.joins rs y) :
      Derives (.chain r) (ls ++ l :: rs) (.binary op x y)
  | negated {ls : List Lexeme} {x : Expr} (h : Derives .negation ls x) :
      Derives .negation (.word (Text.utf8 "not") :: ls) (.unary .not x)
  | affirmed {ls : List Lexeme} {x : Expr} (h : Derives (.chain .comparison) ls x) :
      Derives .negation ls x
  | folded {ls : List Lexeme} {v : Int} (h : Derives .signed ls (.int v)) :
      Derives .signed (.symbol .minus :: ls) (.int (-v))
  | sign {l : Lexeme} {op : UnaryOp} {ls : List Lexeme} {x : Expr} (hl : SpellsSign l op)
      (h : Derives .signed ls x) (hf : ∀ v, ¬ (op = .neg ∧ x = .int v)) :
      Derives .signed (l :: ls) (.unary op x)
  | unsigned {ls : List Lexeme} {x : Expr} (h : Derives .postfixed ls x) : Derives .signed ls x
  | bare {ls : List Lexeme} {x : Expr} (h : Derives .primary ls x) : Derives .postfixed ls x
  | dotted {ls : List Lexeme} {x : Expr} (h : Derives .postfixed ls x) (w : List UInt8) :
      Derives .postfixed (ls ++ [.symbol .dot, .word w]) (.attr x (Text.ofAscii w))
  | indexed {ls is : List Lexeme} {x i : Expr} (hx : Derives .postfixed ls x)
      (hi : Derives .conditional is i) :
      Derives .postfixed (ls ++ .symbol .lbracket :: (is ++ [.symbol .rbracket])) (.index x i)
  | int {t : List UInt8} {v : Int} (h : Numeral.integer? (Text.ofAscii t).toList = some v) :
      Derives .primary [.int t] (.int v)
  | float {t : List UInt8} {v : Double}
      (h : Numeral.double ((Text.ofAscii t).toList.filter (· != '_')) = .ok v) :
      Derives .primary [.float t] (.float v)
  | str (v : List UInt8) : Derives .primary [.str v] (.str (Text.ofUtf8 v))
  | yes : Derives .primary [.word (Text.utf8 "true")] (.bool true)
  | no : Derives .primary [.word (Text.utf8 "false")] (.bool false)
  | name {w : List UInt8} (h : Text.ofAscii w ∉ keywords) :
      Derives .primary [.word w] (.name (Text.ofAscii w))
  | member {w : List UInt8} (h : Text.ofAscii w ∉ keywords) (ws : List (List UInt8))
      (v : List UInt8) :
      Derives .primary (.word w :: pathLexemes (ws ++ [v]))
        (.member (Text.ofAscii w :: ws.map Text.ofAscii) (Text.ofAscii v))
  | group {ls : List Lexeme} {x : Expr} (h : Derives .conditional ls x) :
      Derives .primary (.symbol .lparen :: (ls ++ [.symbol .rparen])) x
  | empty : Derives .primary [.symbol .lbracket, .symbol .rbracket] (.list [])
  | list {ls : List Lexeme} {xs : List Expr} (h : Derives .elements ls (.list xs)) :
      Derives .primary (.symbol .lbracket :: (ls ++ [.symbol .rbracket])) (.list xs)
  | last {ls : List Lexeme} {x : Expr} (h : Derives .conditional ls x) :
      Derives .elements ls (.list [x])
  | next {ls rs : List Lexeme} {x : Expr} {xs : List Expr} (hx : Derives .conditional ls x)
      (hr : Derives .elements rs (.list xs)) :
      Derives .elements (ls ++ .symbol .comma :: rs) (.list (x :: xs))

theorem Rank.op?_eq_some (r : Rank) (l : Lexeme) (op : BinaryOp) :
    r.op? l = some op ↔ r.Spells l op := by
  constructor
  · intro h
    unfold Rank.op? at h
    split at h
    all_goals first
      | (obtain rfl := Option.some.inj h; constructor)
      | skip
    next t =>
      split at h
      next ht =>
        obtain rfl := Option.some.inj h
        rw [eq_of_beq ht]
        exact .orWord
      next => simp at h
    next t =>
      split at h
      next ht =>
        obtain rfl := Option.some.inj h
        rw [eq_of_beq ht]
        exact .andWord
      next => simp at h
    next => simp at h
  · intro h
    cases h <;> simp [Rank.op?]

theorem sign?_eq_some (l : Lexeme) (op : UnaryOp) : sign? l = some op ↔ SpellsSign l op := by
  constructor
  · intro h
    unfold sign? at h
    split at h
    next =>
      obtain rfl := Option.some.inj h
      exact .neg
    next =>
      obtain rfl := Option.some.inj h
      exact .compl
    next =>
      obtain rfl := Option.some.inj h
      exact .not
    next => simp at h
  · intro h
    cases h <;> rfl

theorem isWord_iff (w : String) (l : Lexeme) : isWord w l = true ↔ l = .word (Text.utf8 w) := by
  cases l <;> simp [isWord]

def Phrase.admitsNot : Phrase → Bool
  | .conditional => true
  | .chain .disjunction => true
  | .chain .conjunction => true
  | .negation => true
  | .elements => true
  | _ => false

def Phrase.admitsSign : Phrase → Bool
  | .postfixed => false
  | .primary => false
  | _ => true

structure Begins (p : Phrase) (l : Lexeme) : Prop where
  word : isWord "not" l = true → p.admitsNot = true
  sign : (sign? l).isSome = true → p.admitsSign = true
  bracket : l ≠ .symbol .rbracket

def Starts (p : Phrase) (ls : List Lexeme) : Prop :=
  ∃ l rest, ls = l :: rest ∧ Begins p l

theorem starts_append (p : Phrase) (ls ks : List Lexeme) (h : Starts p ls) :
    Starts p (ls ++ ks) := by
  obtain ⟨l, rest, rfl, hb⟩ := h
  exact ⟨l, rest ++ ks, rfl, hb⟩

theorem starts_mono (p q : Phrase) (ls : List Lexeme) (h : Starts p ls)
    (hn : p.admitsNot = true → q.admitsNot = true)
    (hs : p.admitsSign = true → q.admitsSign = true) : Starts q ls := by
  obtain ⟨l, rest, rfl, hb⟩ := h
  exact ⟨l, rest, rfl, fun hw => hn (hb.word hw), fun hl => hs (hb.sign hl), hb.bracket⟩

theorem not_keyword_not (w : List UInt8) (h : Text.ofAscii w ∉ keywords) :
    isWord "not" (.word w) = false := by
  rw [Bool.eq_false_iff]
  intro hw
  obtain rfl := Lexeme.word.inj ((isWord_iff _ _).mp hw)
  exact h (by decide +kernel)

theorem begins_name (w : List UInt8) (h : Text.ofAscii w ∉ keywords) :
    Begins .primary (.word w) :=
  ⟨by simp [not_keyword_not w h], by simp [sign?], by simp⟩

theorem derives_starts (p : Phrase) (ls : List Lexeme) (x : Expr) (h : Derives p ls x) :
    Starts p ls := by
  induction h with
  | plain _ ih => exact starts_mono _ _ _ ih (by decide) (by decide)
  | cond _ _ _ ih => exact starts_append _ _ _ (starts_mono _ _ _ ih (by decide) (by decide))
  | @single r _ _ _ ih =>
    exact starts_mono _ _ _ ih (by cases r <;> decide) (by cases r <;> decide)
  | joined _ _ _ ih => exact starts_append _ _ _ ih
  | negated => exact ⟨_, _, rfl, by simp [Phrase.admitsNot], by simp [sign?], by simp⟩
  | affirmed _ ih => exact starts_mono _ _ _ ih (by decide) (by decide)
  | folded => exact ⟨_, _, rfl, by simp [isWord], by simp [Phrase.admitsSign], by simp⟩
  | sign hl =>
    refine ⟨_, _, rfl, ?_, by simp [Phrase.admitsSign], ?_⟩ <;> cases hl <;> simp [isWord]
  | unsigned _ ih => exact starts_mono _ _ _ ih (by decide) (by decide)
  | bare _ ih => exact starts_mono _ _ _ ih (by decide) (by decide)
  | dotted _ _ ih => exact starts_append _ _ _ ih
  | indexed _ _ ih => exact starts_append _ _ _ ih
  | yes => exact ⟨_, _, rfl, by decide +kernel, by simp [sign?], by simp⟩
  | no => exact ⟨_, _, rfl, by decide +kernel, by simp [sign?], by simp⟩
  | name h => exact ⟨_, _, rfl, begins_name _ h⟩
  | member h => exact ⟨_, _, rfl, begins_name _ h⟩
  | last _ ih => exact starts_mono _ _ _ ih (by decide) (by decide)
  | next _ _ ih => exact starts_append _ _ _ (starts_mono _ _ _ ih (by decide) (by decide))
  | _ => exact ⟨_, _, rfl, by simp [isWord], by simp [sign?], by simp⟩

def Rank.level : Rank → Nat
  | .disjunction => 2
  | .conjunction => 3
  | .comparison => 4
  | .bitOr => 5
  | .bitXor => 6
  | .bitAnd => 7
  | .shift => 8
  | .sum => 9
  | .product => 10

def Phrase.level : Phrase → Nat
  | .conditional => 1
  | .chain r => r.level
  | .negation => 4
  | .signed => 11
  | .postfixed => 11
  | .primary => 12
  | .elements => 1

/-- How tightly a lexeme binds to the phrase before it; zero if it never continues one. -/
def strength : Lexeme → Nat
  | .symbol .question => 1
  | .symbol .or => 2
  | .symbol .and => 3
  | .symbol .eq | .symbol .ne | .symbol .lt | .symbol .le | .symbol .gt | .symbol .ge => 4
  | .symbol .bar => 5
  | .symbol .caret => 6
  | .symbol .amp => 7
  | .symbol .shl | .symbol .shr => 8
  | .symbol .plus | .symbol .minus => 9
  | .symbol .star | .symbol .slash | .symbol .percent => 10
  | .symbol .dot | .symbol .lbracket => 11
  | .symbol .scope => 12
  | .word t => if t = Text.utf8 "or" then 2 else if t = Text.utf8 "and" then 3 else 0
  | _ => 0

theorem strength_spells (r : Rank) (l : Lexeme) (op : BinaryOp) (h : r.Spells l op) :
    strength l = r.level := by
  cases h <;> decide +kernel

theorem op?_eq_none (r : Rank) (l : Lexeme) (h : strength l < r.level) : r.op? l = none := by
  cases ho : r.op? l with
  | none => rfl
  | some op =>
    have := strength_spells r l op ((r.op?_eq_some l op).mp ho)
    omega

theorem level_lt_joins (r : Rank) : r.level < r.joins.level := by
  cases r <;> decide

end FormatFuzz.Expr
