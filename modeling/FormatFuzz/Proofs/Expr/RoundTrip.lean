import FormatFuzz.Proofs.Expr.Lexing
import FormatFuzz.Proofs.Expr.Parsing
import FormatFuzz.Proofs.Expr.Subterm
import FormatFuzz.Proofs.Numeral

/-!
# Reading the text of an expression

The text of a tree is cut into the lexemes that `lexemes` lists, and these derive the tree. Every
binary and conditional node stands in parentheses, so it is a primary of whatever is around it; a
sign is the loosest thing that can stand without them. What the text of a tree cannot show is ruled
out node by node: see `Legible`.
-/

set_option autoImplicit false

namespace FormatFuzz

def UnaryOp.symbol : UnaryOp → Symbol
  | .neg => .minus
  | .compl => .tilde
  | .not => .bang

def BinaryOp.symbol : BinaryOp → Symbol
  | .or => .or
  | .and => .and
  | .eq => .eq
  | .ne => .ne
  | .lt => .lt
  | .le => .le
  | .gt => .gt
  | .ge => .ge
  | .bitOr => .bar
  | .bitXor => .caret
  | .bitAnd => .amp
  | .shl => .shl
  | .shr => .shr
  | .add => .plus
  | .sub => .minus
  | .mul => .star
  | .div => .slash
  | .mod => .percent

theorem UnaryOp.utf8_text (op : UnaryOp) : Text.utf8 op.text = op.symbol.bytes := by
  cases op <;> rfl

theorem BinaryOp.utf8_text (op : BinaryOp) : Text.utf8 op.text = op.symbol.bytes := by
  cases op <;> rfl

namespace Token

def isNameStart (c : Char) : Bool :=
  c == '_' || c.isAlpha

def isNamePart (c : Char) : Bool :=
  isNameStart c || c.isDigit

/-- Is a text a letter or an underscore with letters, digits and underscores after it? -/
def isIdentifier (s : String) : Bool :=
  match s.toList with
  | [] => false
  | c :: cs => isNameStart c && cs.all isNamePart

theorem isNamePart_lt (c : Char) (h : isNamePart c = true) : c.toNat < 128 := by
  simp only [isNamePart, isNameStart, Bool.or_eq_true, beq_iff_eq, Text.isAlpha_iff,
    Text.isUpper_iff, Text.isLower_iff, Char.isDigit_iff_toNat, Char.reduceToNat] at h
  rcases h with (rfl | h) | h
  · decide
  all_goals omega

theorem byte_name (c : Char) (h : c.toNat < 128) :
    (isNameStart c = true → isWordStart (byte c) = true) ∧
      (isNamePart c = true → isWordPart (byte c) = true) ∧
      (c.isDigit = true → isDigit (byte c) = true) := by
  have all : ∀ n < 128,
      (isNameStart (Char.ofNat n) = true → isWordStart (byte (Char.ofNat n)) = true) ∧
        (isNamePart (Char.ofNat n) = true → isWordPart (byte (Char.ofNat n)) = true) ∧
        ((Char.ofNat n).isDigit = true → isDigit (byte (Char.ofNat n)) = true) := by
    decide +kernel
  have := all c.toNat h
  rwa [Char.ofNat_toNat] at this

theorem utf8_ascii (cs : List Char) (h : ∀ c ∈ cs, c.toNat < 128) :
    cs.flatMap String.utf8EncodeChar = cs.map byte := by
  induction cs with
  | nil => rfl
  | cons c cs ih =>
    rw [List.flatMap_cons, Text.utf8EncodeChar_ascii c (h c (by simp)),
      ih fun d hd => h d (List.mem_cons_of_mem c hd)]
    rfl

theorem ofAscii_byte (cs : List Char) (h : ∀ c ∈ cs, c.toNat < 128) :
    Text.ofAscii (cs.map byte) = String.ofList cs := by
  rw [Text.ofAscii, List.map_map]
  congr 1
  refine (List.map_congr_left fun c hc => ?_).trans (List.map_id cs)
  have : c.toNat % 256 = c.toNat := Nat.mod_eq_of_lt (Nat.lt_trans (h c hc) (by omega))
  simp [byte, this]

theorem identifier_bytes (s : String) (h : isIdentifier s = true) :
    ∃ b bs, Text.utf8 s = b :: bs ∧ isWordStart b = true ∧ (∀ c ∈ bs, isWordPart c = true) ∧
      Text.ofAscii (Text.utf8 s) = s := by
  unfold isIdentifier at h
  split at h
  next => simp at h
  next c cs hs =>
    rw [Bool.and_eq_true, List.all_eq_true] at h
    have hp : isNamePart c = true := by simp [isNamePart, h.1]
    have hl : ∀ d ∈ c :: cs, d.toNat < 128 := by
      intro d hd
      rcases List.mem_cons.mp hd with rfl | hd
      · exact isNamePart_lt d hp
      · exact isNamePart_lt d (h.2 d hd)
    have hu : Text.utf8 s = (c :: cs).map byte := by rw [Text.utf8, hs, utf8_ascii _ hl]
    refine ⟨byte c, cs.map byte, hu, (byte_name c (hl c (by simp))).1 h.1, ?_, ?_⟩
    · intro b hb
      obtain ⟨d, hd, rfl⟩ := List.mem_map.mp hb
      exact (byte_name d (hl d (List.mem_cons_of_mem c hd))).2.1 (h.2 d hd)
    · rw [hu, ofAscii_byte _ hl, ← hs, String.ofList_toList]

theorem decimal_bytes (n : Nat) :
    ∃ b bs, Text.utf8 (toString n) = b :: bs ∧ (∀ c ∈ b :: bs, isDigit c = true) ∧
      (Text.ofAscii (Text.utf8 (toString n))).toList = Nat.toDigits 10 n := by
  have hs : (toString n).toList = Nat.toDigits 10 n := Numeral.toList_toString_ofNat n
  have hd : ∀ c ∈ Nat.toDigits 10 n, c.isDigit = true :=
    fun c hc => Nat.isDigit_of_mem_toDigits (by omega) (by omega) hc
  have hl : ∀ c ∈ Nat.toDigits 10 n, c.toNat < 128 :=
    fun c hc => isNamePart_lt c (by simp [isNamePart, hd c hc])
  have hu : Text.utf8 (toString n) = (Nat.toDigits 10 n).map byte := by
    rw [Text.utf8, hs, utf8_ascii _ hl]
  have hm : ∀ b ∈ (Nat.toDigits 10 n).map byte, isDigit b = true := by
    intro b hb
    obtain ⟨c, hc, rfl⟩ := List.mem_map.mp hb
    exact (byte_name c (hl c hc)).2.2 (hd c hc)
  obtain ⟨b, bs, hb⟩ := List.exists_cons_of_ne_nil
    (show (Nat.toDigits 10 n).map byte ≠ [] by simp [Nat.toDigits_ne_nil])
  refine ⟨b, bs, hu.trans hb, hb ▸ hm, ?_⟩
  rw [hu, ofAscii_byte _ hl, String.toList_ofList]

end Token

namespace Expr

open Token (Cuts Breaks isIdentifier)

mutual

def lexemes : Expr → List Lexeme
  | .int v =>
    (if v < 0 then [.symbol .minus] else []) ++ [.int (Text.utf8 (toString v.natAbs))]
  | .float _ => []
  | .str s => [.str (Text.utf8 s)]
  | .bool b => [.word (Text.utf8 (if b then "true" else "false"))]
  | .name id => [.word (Text.utf8 id)]
  | .member [] _ => []
  | .member (w :: ws) id => .word (Text.utf8 w) :: pathLexemes ((ws ++ [id]).map Text.utf8)
  | .unary op x => .symbol op.symbol :: x.lexemes
  | .binary op x y =>
    .symbol .lparen :: (x.lexemes ++ .symbol op.symbol :: y.lexemes ++ [.symbol .rparen])
  | .cond c a b =>
    .symbol .lparen :: (c.lexemes ++ .symbol .question :: (a.lexemes ++ .symbol .colon :: b.lexemes)
      ++ [.symbol .rparen])
  | .attr x id => x.lexemes ++ [.symbol .dot, .word (Text.utf8 id)]
  | .index x i => x.lexemes ++ .symbol .lbracket :: (i.lexemes ++ [.symbol .rbracket])
  | .list xs => .symbol .lbracket :: (listLexemes xs ++ [.symbol .rbracket])
  | .absent => []

def listLexemes : List Expr → List Lexeme
  | [] => []
  | x :: xs => x.lexemes ++ (if xs.isEmpty then [] else .symbol .comma :: listLexemes xs)

end

/-- Can an attribute or an index follow the text of a tree and belong to all of it? -/
def takesSuffix : Expr → Bool
  | .unary .. => false
  | .int v => 0 ≤ v
  | _ => true

def isInt : Expr → Bool
  | .int _ => true
  | _ => false

def Legible : Expr → Prop
  | .float _ => False
  | .str s => ∀ c ∈ s.toList, Token.isLiteralChar c = true
  | .name id => isIdentifier id = true ∧ id ∉ keywords
  | .member path id =>
    path ≠ [] ∧ (∀ w ∈ path.head?, w ∉ keywords) ∧ ∀ w ∈ path ++ [id], isIdentifier w = true
  | .unary op x => ¬ (op = .neg ∧ x.isInt = true)
  | .attr x id => x.takesSuffix = true ∧ isIdentifier id = true
  | .index x _ => x.takesSuffix = true
  | _ => True

instance : DecidablePred Legible := fun x =>
  match x with
  | .float _ => inferInstanceAs (Decidable False)
  | .str s => List.decidableBAll (fun c => Token.isLiteralChar c = true) s.toList
  | .name id => inferInstanceAs (Decidable (isIdentifier id = true ∧ id ∉ keywords))
  | .member path id => inferInstanceAs (Decidable (path ≠ [] ∧ (∀ w ∈ path.head?, w ∉ keywords)
      ∧ ∀ w ∈ path ++ [id], isIdentifier w = true))
  | .unary op x => inferInstanceAs (Decidable ¬ (op = .neg ∧ x.isInt = true))
  | .attr x id => inferInstanceAs (Decidable (x.takesSuffix = true ∧ isIdentifier id = true))
  | .index x _ => inferInstanceAs (Decidable (x.takesSuffix = true))
  | .int _ | .bool _ | .binary .. | .cond .. | .list _ | .absent =>
    inferInstanceAs (Decidable True)

/-- A tree with a node in every place, each of which its text shows. -/
structure Readable (e : Expr) : Prop where
  complete : e.complete = true
  legible : ∀ x ∈ e.subterms, x.Legible

theorem cuts_identifier (s : String) (rest : List UInt8) (h : isIdentifier s = true)
    (hr : ∀ c ∈ rest.head?, Token.isWordPart c = false) :
    Cuts (Text.utf8 s) [.word (Text.utf8 s)] rest := by
  obtain ⟨b, bs, hs, hb, hbs, -⟩ := Token.identifier_bytes s h
  rw [hs]
  exact Token.cuts_word b bs rest hb hbs hr

theorem cuts_keyword (b : Bool) (rest : List UInt8) (hr : Breaks rest) :
    Cuts (Text.utf8 (if b then "true" else "false"))
      [.word (Text.utf8 (if b then "true" else "false"))] rest := by
  have hi : isIdentifier (if b then "true" else "false") = true := by cases b <;> decide
  exact cuts_identifier _ rest hi (Token.breaks_head _ (by decide) rest hr)

theorem cuts_nat (n : Nat) (rest : List UInt8) (hr : Breaks rest) :
    Cuts (Text.utf8 (toString n)) [.int (Text.utf8 (toString n))] rest := by
  obtain ⟨b, bs, hs, hd, -⟩ := Token.decimal_bytes n
  rw [hs]
  exact Token.cuts_digits b bs rest hd hr

def Opens (bs : List UInt8) : Prop :=
  ∃ b rest, bs = b :: rest ∧ b ∉ Token.seconds

theorem opens_append (bs cs : List UInt8) (h : Opens bs) : Opens (bs ++ cs) := by
  obtain ⟨b, rest, rfl, hb⟩ := h
  exact ⟨b, rest ++ cs, rfl, hb⟩

theorem cuts_opened (s : Symbol) (rest : List UInt8) (h : Opens rest) :
    Cuts s.bytes [.symbol s] rest := by
  obtain ⟨b, bs, rfl, hb⟩ := h
  exact Token.cuts_symbol s _ (by simpa using hb)

theorem cuts_before_break (s : Symbol) (rest : List UInt8) (h : Breaks rest) :
    Cuts s.bytes [.symbol s] rest :=
  Token.cuts_symbol s rest fun c hc => by
    simpa using Token.breaks_head Token.seconds.contains (by decide) rest h c hc

theorem opens_identifier (s : String) (h : isIdentifier s = true) : Opens (Text.utf8 s) := by
  obtain ⟨b, bs, hs, hb, -⟩ := Token.identifier_bytes s h
  refine ⟨b, bs, hs, ?_⟩
  rw [Token.isWordStart_iff] at hb
  simp only [Token.seconds, List.mem_cons, List.not_mem_nil, or_false, ← UInt8.toNat_inj]
  simp only [UInt8.toNat_ofNat]
  omega

theorem opens_nat (n : Nat) : Opens (Text.utf8 (toString n)) := by
  obtain ⟨b, bs, hs, hd, -⟩ := Token.decimal_bytes n
  refine ⟨b, bs, hs, ?_⟩
  have hb := (Token.isDigit_iff b).mp (hd b (by simp))
  simp only [Token.seconds, List.mem_cons, List.not_mem_nil, or_false, ← UInt8.toNat_inj]
  simp only [UInt8.toNat_ofNat]
  omega

theorem cuts_path (ws : List String) (rest : List UInt8) (hw : ∀ w ∈ ws, isIdentifier w = true)
    (hr : Breaks rest) :
    Cuts (ws.flatMap fun w => Symbol.scope.bytes ++ Text.utf8 w)
      (pathLexemes (ws.map Text.utf8)) rest := by
  induction ws with
  | nil => exact Token.cuts_nil rest
  | cons w ws ih =>
    have hi := hw w (by simp)
    have hws := ih fun v hv => hw v (List.mem_cons_of_mem w hv)
    have hend : ∀ c ∈ (ws.flatMap (fun w => Symbol.scope.bytes ++ Text.utf8 w) ++ rest).head?,
        Token.isWordPart c = false := by
      cases ws with
      | nil => exact Token.breaks_head _ (by decide) rest hr
      | cons v vs =>
        intro c hc
        obtain rfl : 58 = c := by simpa [show Symbol.scope.bytes = [58, 58] from rfl] using hc
        decide
    rw [List.flatMap_cons, List.append_assoc]
    refine Token.cuts_append _ _ rest [_] _ ?_
      (Token.cuts_append _ _ rest [_] _ (cuts_identifier w _ hi hend) hws)
    exact cuts_opened .scope _ (opens_append _ _ (opens_append _ _ (opens_identifier w hi)))

theorem utf8_join (w : String) (ws : List String) :
    Text.utf8 (Text.join "::" (w :: ws))
      = Text.utf8 w ++ ws.flatMap fun w => Symbol.scope.bytes ++ Text.utf8 w := by
  induction ws generalizing w with
  | nil => simp [Text.join]
  | cons v vs ih =>
    rw [Text.join, Text.utf8_append, Text.utf8_append, ih v]
    · simp [show Text.utf8 "::" = Symbol.scope.bytes from rfl]
    · simp

theorem listComplete_iff (xs : List Expr) :
    listComplete xs = true ↔ ∀ x ∈ xs, x.complete = true := by
  induction xs with
  | nil => simp [listComplete]
  | cons x xs ih => simp [listComplete, ih]

theorem complete_of_within {x e : Expr} (h : Within x e) (he : e.complete = true) :
    x.complete = true := by
  induction h with
  | self => exact he
  | element hy _ ih =>
    rw [Expr.complete, listComplete_iff] at he
    exact ih (he _ hy)
  | _ => simp_all [Expr.complete]

theorem Readable.within {x e : Expr} (h : Readable e) (hx : Within x e) : Readable x :=
  ⟨complete_of_within hx h.complete, fun y hy => by
    by_cases hy' : y = .absent
    · exact hy' ▸ trivial
    · exact h.legible y ((mem_subterms y e hy').mpr (.trans ((mem_subterms y x hy').mp hy) hx))⟩

theorem Readable.operand {op : UnaryOp} {x : Expr} (h : Readable (.unary op x)) : Readable x :=
  h.within (.operand .self)

theorem Readable.left {op : BinaryOp} {x y : Expr} (h : Readable (.binary op x y)) :
    Readable x :=
  h.within (.left .self)

theorem Readable.right {op : BinaryOp} {x y : Expr} (h : Readable (.binary op x y)) :
    Readable y :=
  h.within (.right .self)

theorem Readable.condition {c a b : Expr} (h : Readable (.cond c a b)) : Readable c :=
  h.within (.condition .self)

theorem Readable.consequent {c a b : Expr} (h : Readable (.cond c a b)) : Readable a :=
  h.within (.consequent .self)

theorem Readable.alternative {c a b : Expr} (h : Readable (.cond c a b)) : Readable b :=
  h.within (.alternative .self)

theorem Readable.object {x : Expr} {id : String} (h : Readable (.attr x id)) : Readable x :=
  h.within (.object .self)

theorem Readable.indexed {x i : Expr} (h : Readable (.index x i)) : Readable x :=
  h.within (.indexed .self)

theorem Readable.position {x i : Expr} (h : Readable (.index x i)) : Readable i :=
  h.within (.position .self)

theorem Readable.element {xs : List Expr} (h : Readable (.list xs)) (x : Expr) (hx : x ∈ xs) :
    Readable x :=
  h.within (.element hx .self)

theorem Readable.self {x : Expr} (h : Readable x) : x.Legible := by
  refine h.legible x (self_mem_subterms x ?_)
  rintro rfl
  simpa [Expr.complete] using h.complete

theorem text_negSucc (n : Nat) : text (.int (Int.negSucc n)) = "-" ++ toString (n + 1) := by
  rw [text]
  rfl

theorem opens_text : ∀ x : Expr, Readable x → Opens (Text.utf8 x.text)
  | .int (.ofNat n), _ => by
    rw [text]
    exact opens_nat n
  | .int (.negSucc n), _ => by
    rw [text_negSucc, Text.utf8_append]
    exact opens_append _ _ ⟨45, [], rfl, by decide⟩
  | .float _, h => h.self.elim
  | .str s, _ => by
    rw [text, Text.quoted, Text.utf8, String.toList_ofList]
    exact ⟨34, _, rfl, by decide⟩
  | .bool b, _ => by
    rw [text]
    cases b <;> exact ⟨_, _, rfl, by decide⟩
  | .name id, h => by
    rw [text]
    exact opens_identifier id h.self.1
  | .member [] id, h => absurd rfl h.self.1
  | .member (w :: ws) id, h => by
    rw [text, List.cons_append, utf8_join]
    exact opens_append _ _ (opens_identifier w (h.self.2.2 w (by simp)))
  | .unary op x, _ => by
    rw [text, Text.utf8_append]
    refine opens_append _ _ ?_
    cases op <;> exact ⟨_, _, rfl, by decide⟩
  | .binary .., _ => by
    simp only [text, Text.utf8_append, List.append_assoc]
    exact opens_append _ _ ⟨40, [], rfl, by decide⟩
  | .cond .., _ => by
    simp only [text, Text.utf8_append, List.append_assoc]
    exact opens_append _ _ ⟨40, [], rfl, by decide⟩
  | .attr x id, h => by
    simp only [text, Text.utf8_append, List.append_assoc]
    exact opens_append _ _ (opens_text x h.object)
  | .index x i, h => by
    simp only [text, Text.utf8_append, List.append_assoc]
    exact opens_append _ _ (opens_text x h.indexed)
  | .list _, _ => by
    simp only [text, Text.utf8_append, List.append_assoc]
    exact opens_append _ _ ⟨91, [], rfl, by decide⟩
  | .absent, h => absurd h.complete (by simp [Expr.complete])

theorem opens_list (xs : List Expr) (h : ∀ x ∈ xs, Readable x) :
    Opens (Text.utf8 (Text.join ", " (texts xs)) ++ Text.utf8 "]") := by
  match xs with
  | [] => exact ⟨93, [], rfl, by decide⟩
  | [x] => exact opens_append _ _ (opens_text x (h x (by simp)))
  | x :: y :: ys =>
    simp only [texts, Text.join, Text.utf8_append, List.append_assoc]
    exact opens_append _ _ (opens_text x (h x (by simp)))

theorem cuts_spaced (s : Symbol) (rest : List UInt8) :
    Cuts ([32] ++ (s.bytes ++ [32])) [.symbol s] rest :=
  Token.cuts_append _ _ rest [] _ (Token.cuts_space _) (Token.cuts_append _ _ rest _ []
    (cuts_before_break s _ (.byte 32 _ (by decide))) (Token.cuts_space rest))

theorem cuts_comma (rest : List UInt8) : Cuts (Text.utf8 ", ") [.symbol .comma] rest :=
  Token.cuts_append [44] [32] rest [_] [] (cuts_before_break .comma _ (.byte 32 _ (by decide)))
    (Token.cuts_space rest)

mutual

theorem cuts_text : ∀ (x : Expr) (rest : List UInt8), Readable x → Breaks rest →
    Cuts (Text.utf8 x.text) x.lexemes rest
  | .int (.ofNat n), rest, _, hr => by
    rw [text, lexemes, if_neg (by simp)]
    exact cuts_nat n rest hr
  | .int (.negSucc n), rest, _, hr => by
    rw [text_negSucc, Text.utf8_append, lexemes, if_pos (Int.negSucc_lt_zero n)]
    exact Token.cuts_append _ _ rest _ _
      (cuts_opened .minus _ (opens_append _ _ (opens_nat (n + 1)))) (cuts_nat (n + 1) rest hr)
  | .float _, _, h, _ => h.self.elim
  | .str s, rest, h, _ => by
    rw [text, lexemes]
    exact Token.cuts_string s rest h.self
  | .bool b, rest, _, hr => by
    rw [text, lexemes]
    exact cuts_keyword b rest hr
  | .name id, rest, h, hr => by
    rw [text, lexemes]
    exact cuts_identifier id rest h.self.1 (Token.breaks_head _ (by decide) rest hr)
  | .member [] _, _, h, _ => absurd rfl h.self.1
  | .member (w :: ws) id, rest, h, hr => by
    have hi := h.self.2.2
    have hp := cuts_path (ws ++ [id]) rest (fun v hv => hi v (List.mem_cons_of_mem w hv)) hr
    rw [text, lexemes, List.cons_append, utf8_join]
    refine Token.cuts_append _ _ rest [_] _ (cuts_identifier w _ (hi w (by simp)) ?_) hp
    intro c hc
    cases ws <;>
      obtain rfl : 58 = c := by simpa [show Symbol.scope.bytes = [58, 58] from rfl] using hc
    all_goals decide
  | .unary op x, rest, h, hr => by
    rw [text, lexemes, Text.utf8_append, UnaryOp.utf8_text]
    exact Token.cuts_append _ _ rest [_] _
      (cuts_opened op.symbol _ (opens_append _ _ (opens_text x h.operand)))
      (cuts_text x rest h.operand hr)
  | .binary op x y, rest, h, hr => by
    have blank : ∀ bs, Breaks (32 :: bs) := fun bs => .byte 32 bs (by decide)
    simp only [text, lexemes, Text.utf8_append, List.append_assoc, List.cons_append,
      BinaryOp.utf8_text]
    refine Token.cuts_append _ _ rest [_] _ ?_ (Token.cuts_append _ _ rest _ _ ?_
      (Token.cuts_append _ _ rest [] _ ?_ (Token.cuts_append _ _ rest [_] _ ?_
      (Token.cuts_append _ _ rest [] _ ?_ (Token.cuts_append _ _ rest _ [_] ?_ ?_)))))
    · exact cuts_opened .lparen _ (opens_append _ _ (opens_append _ _ (opens_text x h.left)))
    · exact cuts_text x _ h.left (blank _)
    · exact Token.cuts_space _
    · exact cuts_before_break op.symbol _ (blank _)
    · exact Token.cuts_space _
    · exact cuts_text y _ h.right (.byte 41 _ (by decide))
    · exact cuts_before_break .rparen rest hr
  | .cond c a b, rest, h, hr => by
    have blank : ∀ bs, Breaks (32 :: bs) := fun bs => .byte 32 bs (by decide)
    simp only [text, lexemes, Text.utf8_append, List.append_assoc, List.cons_append]
    refine Token.cuts_append _ _ rest [_] _ ?_ (Token.cuts_append _ _ rest _ _ ?_
      (Token.cuts_append _ _ rest [_] _ ?_ (Token.cuts_append _ _ rest _ _ ?_
      (Token.cuts_append _ _ rest [_] _ ?_ (Token.cuts_append _ _ rest _ [_] ?_ ?_)))))
    · exact cuts_opened .lparen _ (opens_append _ _ (opens_append _ _ (opens_text c h.condition)))
    · exact cuts_text c _ h.condition (blank _)
    · exact cuts_spaced .question _
    · exact cuts_text a _ h.consequent (blank _)
    · exact cuts_spaced .colon _
    · exact cuts_text b _ h.alternative (.byte 41 _ (by decide))
    · exact cuts_before_break .rparen rest hr
  | .attr x id, rest, h, hr => by
    obtain ⟨b, bs, hs, hb, -⟩ := Token.identifier_bytes id h.self.2
    simp only [text, lexemes, Text.utf8_append, List.append_assoc]
    refine Token.cuts_append _ _ rest _ _ ?_ (Token.cuts_append _ _ rest [_] [_] ?_ ?_)
    · refine cuts_text x _ h.object ?_
      rw [hs]
      exact .point b _ hb
    · exact cuts_opened .dot _ (opens_append _ _ (opens_identifier id h.self.2))
    · exact cuts_identifier id rest h.self.2 (Token.breaks_head _ (by decide) rest hr)
  | .index x i, rest, h, hr => by
    simp only [text, lexemes, Text.utf8_append, List.append_assoc]
    refine Token.cuts_append _ _ rest _ _ ?_ (Token.cuts_append _ _ rest [_] _ ?_
      (Token.cuts_append _ _ rest _ [_] ?_ ?_))
    · exact cuts_text x _ h.indexed (.byte 91 _ (by decide))
    · exact cuts_opened .lbracket _ (opens_append _ _ (opens_append _ _ (opens_text i h.position)))
    · exact cuts_text i _ h.position (.byte 93 _ (by decide))
    · exact cuts_before_break .rbracket rest hr
  | .list xs, rest, h, hr => by
    simp only [text, lexemes, Text.utf8_append, List.append_assoc]
    refine Token.cuts_append _ _ rest [_] _ ?_ (Token.cuts_append _ _ rest _ [_] ?_ ?_)
    · exact cuts_opened .lbracket _ (opens_append _ _ (opens_list xs h.element))
    · exact cuts_texts xs rest h.element
    · exact cuts_before_break .rbracket rest hr
  | .absent, _, h, _ => absurd h.complete (by simp [Expr.complete])

theorem cuts_texts : ∀ (xs : List Expr) (rest : List UInt8), (∀ x ∈ xs, Readable x) →
    Cuts (Text.utf8 (Text.join ", " (texts xs))) (listLexemes xs) (93 :: rest)
  | [], rest, _ => by
    rw [texts, listLexemes]
    exact Token.cuts_nil _
  | [x], rest, h => by
    simp only [texts, listLexemes, Text.join, List.isEmpty_nil, if_true, List.append_nil]
    exact cuts_text x _ (h x (by simp)) (.byte 93 _ (by decide))
  | x :: y :: ys, rest, h => by
    have hr := cuts_texts (y :: ys) rest fun z hz => h z (List.mem_cons_of_mem x hz)
    simp only [texts, listLexemes, Text.join, Text.utf8_append, List.append_assoc] at hr ⊢
    refine Token.cuts_append _ _ _ _ _ ?_ (Token.cuts_append _ _ _ [_] _ ?_ hr)
    · exact cuts_text x _ (h x (by simp)) (.byte 44 _ (by decide))
    · exact cuts_comma _

end

theorem derives_conditional_of_chain (r : Rank) (ls : List Lexeme) (x : Expr)
    (h : Derives (.chain r) ls x) : Derives .conditional ls x := by
  have conjunction (h : Derives (.chain .conjunction) ls x) : Derives .conditional ls x :=
    .plain (.single h)
  have comparison (h : Derives (.chain .comparison) ls x) := conjunction (.single (.affirmed h))
  have bitOr (h : Derives (.chain .bitOr) ls x) := comparison (.single h)
  have bitXor (h : Derives (.chain .bitXor) ls x) := bitOr (.single h)
  have bitAnd (h : Derives (.chain .bitAnd) ls x) := bitXor (.single h)
  have shift (h : Derives (.chain .shift) ls x) := bitAnd (.single h)
  have sum (h : Derives (.chain .sum) ls x) := shift (.single h)
  cases r with
  | disjunction => exact .plain h
  | conjunction => exact conjunction h
  | comparison => exact comparison h
  | bitOr => exact bitOr h
  | bitXor => exact bitXor h
  | bitAnd => exact bitAnd h
  | shift => exact shift h
  | sum => exact sum h
  | product => exact sum (.single h)

theorem derives_chain (r : Rank) (ls : List Lexeme) (x : Expr) (h : Derives .signed ls x) :
    Derives (.chain r) ls x := by
  have product : Derives (.chain .product) ls x := .single h
  have sum : Derives (.chain .sum) ls x := .single product
  have shift : Derives (.chain .shift) ls x := .single sum
  have bitAnd : Derives (.chain .bitAnd) ls x := .single shift
  have bitXor : Derives (.chain .bitXor) ls x := .single bitAnd
  have bitOr : Derives (.chain .bitOr) ls x := .single bitXor
  have comparison : Derives (.chain .comparison) ls x := .single bitOr
  have conjunction : Derives (.chain .conjunction) ls x := .single (.affirmed comparison)
  cases r with
  | disjunction => exact .single conjunction
  | _ => assumption

theorem derives_joins (r : Rank) (ls : List Lexeme) (x : Expr) (h : Derives .signed ls x) :
    Derives r.joins ls x := by
  cases r with
  | conjunction => exact .affirmed (derives_chain _ ls x h)
  | product => exact h
  | _ => exact derives_chain _ ls x h

theorem derives_conditional (ls : List Lexeme) (x : Expr) (h : Derives .signed ls x) :
    Derives .conditional ls x :=
  .plain (derives_chain _ ls x h)

theorem derives_primary (ls : List Lexeme) (x : Expr) (h : Derives .primary ls x) :
    Derives .signed ls x :=
  .unsigned (.bare h)

theorem spells_symbol (op : BinaryOp) : ∃ r : Rank, r.Spells (.symbol op.symbol) op := by
  cases op <;> exact ⟨_, by constructor⟩

theorem spellsSign_symbol (op : UnaryOp) : SpellsSign (.symbol op.symbol) op := by
  cases op <;> constructor

theorem derives_nat (n : Nat) :
    Derives .primary [.int (Text.utf8 (toString n))] (.int n) := by
  obtain ⟨-, -, -, -, ht⟩ := Token.decimal_bytes n
  refine .int ?_
  rw [ht, ← Numeral.toList_toString_ofNat, Numeral.integer?_toString]

theorem ofAscii_identifier (s : String) (h : isIdentifier s = true) :
    Text.ofAscii (Text.utf8 s) = s := by
  obtain ⟨-, -, -, -, -, ht⟩ := Token.identifier_bytes s h
  exact ht

theorem derives_name (id : String) (h : isIdentifier id = true) (hk : id ∉ keywords) :
    Derives .primary [.word (Text.utf8 id)] (.name id) := by
  have hd := Derives.name (w := Text.utf8 id) (by rwa [ofAscii_identifier id h])
  rwa [ofAscii_identifier id h] at hd

theorem derives_member (w : String) (ws : List String) (id : String) (hk : w ∉ keywords)
    (h : ∀ v ∈ w :: ws ++ [id], isIdentifier v = true) :
    Derives .primary (.word (Text.utf8 w) :: pathLexemes ((ws ++ [id]).map Text.utf8))
      (.member (w :: ws) id) := by
  have hw := ofAscii_identifier w (h w (by simp))
  have hi := ofAscii_identifier id (h id (by simp))
  have hs : (ws.map Text.utf8).map Text.ofAscii = ws := by
    rw [List.map_map]
    refine (List.map_congr_left fun v hv => ?_).trans (List.map_id ws)
    exact ofAscii_identifier v (h v (by simp [hv]))
  have hd := Derives.member (w := Text.utf8 w) (by rwa [hw]) (ws.map Text.utf8) (Text.utf8 id)
  rw [hw, hi, hs] at hd
  simpa using hd

mutual

/-- The lexemes of a tree are a phrase of it with signs, and one that an attribute or an index can
follow if the tree takes one. -/
theorem derives_text : ∀ x : Expr, Readable x →
    Derives .signed x.lexemes x ∧ (x.takesSuffix = true → Derives .postfixed x.lexemes x)
  | .int (.ofNat n), _ => by
    rw [lexemes, if_neg (by simp)]
    exact ⟨derives_primary _ _ (derives_nat n), fun _ => .bare (derives_nat n)⟩
  | .int (.negSucc n), _ => by
    rw [lexemes, if_pos (Int.negSucc_lt_zero n)]
    refine ⟨.folded (derives_primary _ _ (derives_nat (n + 1))), fun ht => ?_⟩
    simp [takesSuffix] at ht
  | .float _, h => h.self.elim
  | .str s, _ => by
    have hd := Derives.str (Text.utf8 s)
    rw [Text.ofUtf8_utf8] at hd
    rw [lexemes]
    exact ⟨derives_primary _ _ hd, fun _ => .bare hd⟩
  | .bool b, _ => by
    rw [lexemes]
    cases b with
    | true => exact ⟨derives_primary _ _ .yes, fun _ => .bare .yes⟩
    | false => exact ⟨derives_primary _ _ .no, fun _ => .bare .no⟩
  | .name id, h => by
    have hd := derives_name id h.self.1 h.self.2
    rw [lexemes]
    exact ⟨derives_primary _ _ hd, fun _ => .bare hd⟩
  | .member [] _, h => absurd rfl h.self.1
  | .member (w :: ws) id, h => by
    have hd := derives_member w ws id (h.self.2.1 w (by simp)) h.self.2.2
    rw [lexemes]
    exact ⟨derives_primary _ _ hd, fun _ => .bare hd⟩
  | .unary op x, h => by
    rw [lexemes]
    refine ⟨.sign (spellsSign_symbol op) (derives_text x h.operand).1 ?_, by simp [takesSuffix]⟩
    rintro v ⟨rfl, rfl⟩
    exact h.self ⟨rfl, rfl⟩
  | .binary op x y, h => by
    obtain ⟨r, hr⟩ := spells_symbol op
    have hd : Derives .primary (lexemes (.binary op x y)) (.binary op x y) := by
      rw [lexemes]
      exact .group (derives_conditional_of_chain r _ _
        (.joined (derives_chain r _ _ (derives_text x h.left).1) hr
          (derives_joins r _ _ (derives_text y h.right).1)))
    exact ⟨derives_primary _ _ hd, fun _ => .bare hd⟩
  | .cond c a b, h => by
    have hd : Derives .primary (lexemes (.cond c a b)) (.cond c a b) := by
      rw [lexemes]
      exact .group (.cond (derives_chain _ _ _ (derives_text c h.condition).1)
        (derives_conditional _ _ (derives_text a h.consequent).1)
        (derives_conditional _ _ (derives_text b h.alternative).1))
    exact ⟨derives_primary _ _ hd, fun _ => .bare hd⟩
  | .attr x id, h => by
    have hd := Derives.dotted ((derives_text x h.object).2 h.self.1) (Text.utf8 id)
    rw [ofAscii_identifier id h.self.2] at hd
    rw [lexemes]
    exact ⟨.unsigned hd, fun _ => hd⟩
  | .index x i, h => by
    have hd := Derives.indexed ((derives_text x h.indexed).2 h.self)
      (derives_conditional _ _ (derives_text i h.position).1)
    rw [lexemes]
    exact ⟨.unsigned hd, fun _ => hd⟩
  | .list [], _ => by
    rw [lexemes, listLexemes]
    exact ⟨derives_primary _ _ .empty, fun _ => .bare .empty⟩
  | .list (x :: xs), h => by
    have hd := Derives.list (derives_texts (x :: xs) h.element (by simp))
    rw [lexemes]
    exact ⟨derives_primary _ _ hd, fun _ => .bare hd⟩
  | .absent, h => absurd h.complete (by simp [Expr.complete])

theorem derives_texts : ∀ xs : List Expr, (∀ x ∈ xs, Readable x) → xs ≠ [] →
    Derives .elements (listLexemes xs) (.list xs)
  | [], _, hne => absurd rfl hne
  | [x], h, _ => by
    have hx := derives_conditional _ _ (derives_text x (h x (by simp))).1
    rw [listLexemes]
    simpa using Derives.last hx
  | x :: y :: ys, h, _ => by
    have hx := derives_conditional _ _ (derives_text x (h x (by simp))).1
    have hr := derives_texts (y :: ys) (fun z hz => h z (List.mem_cons_of_mem x hz)) (by simp)
    rw [listLexemes]
    exact Derives.next hx hr

end

/-- Reading undoes writing: a tree that its text can show is the one its text denotes. -/
theorem parse_text (x : Expr) (h : Readable x) : parse x.text = .ok x := by
  obtain ⟨us, hu, hl⟩ := cuts_text x [] h .nil 0 [] rfl
  rw [List.append_nil] at hu
  refine (parse_ok x.text x).mpr ⟨us, by simpa [Token.scan] using hu, ?_⟩
  rw [hl]
  exact derives_conditional _ _ (derives_text x h).1

theorem parse_text_mixed :
    parse (text (.binary .sub
      (.unary .neg (.attr (.index (.name "a") (.cond (.bool true) (.int (-1)) (.int 20))) "b"))
      (.list [.member ["m", "e"] "not", .unary .compl (.int (-3)), .str "q\"\n\\"])))
    = .ok (.binary .sub
      (.unary .neg (.attr (.index (.name "a") (.cond (.bool true) (.int (-1)) (.int 20))) "b"))
      (.list [.member ["m", "e"] "not", .unary .compl (.int (-3)), .str "q\"\n\\"])) :=
  parse_text _ ⟨by decide, by decide⟩

end Expr
end FormatFuzz
