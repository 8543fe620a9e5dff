import FormatFuzz.Proofs.Expr.Parsing
import FormatFuzz.Proofs.Expr.Subterm
import FormatFuzz.Proofs.Keyed

/-!
# Names of a source text

A word of a source text stands free if it is no keyword, follows no `.` or `::` and has no `::`
after it. The free words of a text, from left to right, are the names of its tree: each rule of the
grammar lists the names of its parts in the order in which the parts are written.
-/

set_option autoImplicit false

namespace FormatFuzz

namespace Expr

theorem listSubterms_eq (xs : List Expr) : listSubterms xs = xs.flatMap subterms := by
  induction xs with
  | nil => rfl
  | cons x xs ih => rw [listSubterms, ih, List.flatMap_cons]

@[simp] theorem names_int (v : Int) : (Expr.int v).names = [] := rfl

@[simp] theorem names_float (v : Double) : (Expr.float v).names = [] := rfl

@[simp] theorem names_str (s : String) : (Expr.str s).names = [] := rfl

@[simp] theorem names_bool (b : Bool) : (Expr.bool b).names = [] := rfl

@[simp] theorem names_name (id : String) : (Expr.name id).names = [id] := rfl

@[simp] theorem names_member (path : List String) (id : String) :
    (Expr.member path id).names = [] := rfl

@[simp] theorem names_unary (op : UnaryOp) (x : Expr) : (Expr.unary op x).names = x.names := rfl

@[simp] theorem names_binary (op : BinaryOp) (x y : Expr) :
    (Expr.binary op x y).names = x.names ++ y.names :=
  List.filterMap_append

@[simp] theorem names_cond (c a b : Expr) :
    (Expr.cond c a b).names = c.names ++ a.names ++ b.names :=
  List.filterMap_append.trans (congrArg (· ++ b.names) List.filterMap_append)

@[simp] theorem names_attr (x : Expr) (id : String) : (Expr.attr x id).names = x.names := rfl

@[simp] theorem names_index (x i : Expr) : (Expr.index x i).names = x.names ++ i.names :=
  List.filterMap_append

@[simp] theorem names_list (xs : List Expr) : (Expr.list xs).names = xs.flatMap names := by
  change (listSubterms xs).filterMap name? = _
  rw [listSubterms_eq, List.filterMap_flatMap]
  rfl

def joinsNext (l : Lexeme) : Bool :=
  l == .symbol .dot || l == .symbol .scope

/-- The word at a place of a list of lexemes, if it stands free there: it is no keyword, does not
directly follow a `.` or `::`, and is not directly followed by a `::`. -/
def freeWord? (ls : List Lexeme) (i : Nat) : Option String :=
  match ls[i]? with
  | some (.word w) =>
    if Text.ofAscii w ∈ keywords || (i != 0 && ls[i - 1]?.any joinsNext)
        || ls[i + 1]? == some (.symbol .scope) then none
    else some (Text.ofAscii w)
  | _ => none

def freeWords (ls : List Lexeme) : List String :=
  (List.range ls.length).filterMap (freeWord? ls)

def wordsBetween (before ls after : List Lexeme) : List String :=
  (List.range' before.length ls.length).filterMap (freeWord? (before ++ ls ++ after))

theorem freeWords_eq (ls : List Lexeme) : freeWords ls = wordsBetween [] ls [] := by
  simp [freeWords, wordsBetween, List.range_eq_range']

theorem wordsBetween_nil (before after : List Lexeme) : wordsBetween before [] after = [] := rfl

theorem wordsBetween_append (before ls ks after : List Lexeme) :
    wordsBetween before (ls ++ ks) after
      = wordsBetween before ls (ks ++ after) ++ wordsBetween (before ++ ls) ks after := by
  simp only [wordsBetween, List.length_append, ← List.range'_append_1, List.filterMap_append,
    List.append_assoc]

theorem wordsBetween_cons (before : List Lexeme) (l : Lexeme) (ls after : List Lexeme) :
    wordsBetween before (l :: ls) after
      = wordsBetween before [l] (ls ++ after) ++ wordsBetween (before ++ [l]) ls after :=
  wordsBetween_append before [l] ls after

theorem wordsBetween_singleton (before : List Lexeme) (l : Lexeme) (after : List Lexeme) :
    wordsBetween before [l] after
      = (freeWord? (before ++ l :: after) before.length).toList := by
  rw [wordsBetween, List.append_assoc, List.singleton_append, List.length_singleton,
    List.range'_one, List.filterMap_cons]
  cases freeWord? (before ++ l :: after) before.length <;> rfl

theorem wordsBetween_other (before : List Lexeme) (l : Lexeme) (after : List Lexeme)
    (h : ∀ w, l ≠ .word w) : wordsBetween before [l] after = [] := by
  have hat : (before ++ l :: after)[before.length]? = some l := by simp
  have hnone : freeWord? (before ++ l :: after) before.length = none := by
    unfold freeWord?
    rw [hat]
    split
    next w hw => exact absurd (Option.some.inj hw) (h w)
    next => rfl
  rw [wordsBetween_singleton, hnone]
  rfl

theorem wordsBetween_word (before : List Lexeme) (w : List UInt8) (after : List Lexeme) :
    wordsBetween before [.word w] after
      = if Text.ofAscii w ∈ keywords || before.getLast?.any joinsNext
          || after.head? == some (.symbol .scope) then [] else [Text.ofAscii w] := by
  have hat : (before ++ .word w :: after)[before.length]? = some (.word w) := by simp
  have hafter : (before ++ .word w :: after)[before.length + 1]? = after.head? := by
    simp [List.getElem?_append_right, List.head?_eq_getElem?]
  have hbefore : (before.length != 0 &&
      (before ++ Lexeme.word w :: after)[before.length - 1]?.any joinsNext)
        = before.getLast?.any joinsNext := by
    rcases before.eq_nil_or_concat with rfl | ⟨init, l, rfl⟩
    · rfl
    · simp
  rw [wordsBetween_singleton, freeWord?, hat, hafter]
  simp only
  rw [hbefore]
  split <;> rfl

/-- What stands around a phrase joins neither its first word to something before it nor its last
word to something after it. -/
structure Loose (before after : List Lexeme) : Prop where
  before : before.getLast?.any joinsNext = false
  after : after.head? ≠ some (.symbol .scope)

structure Parts (l : Lexeme) : Prop where
  loose : joinsNext l = false
  silent (before after : List Lexeme) : wordsBetween before [l] after = []

theorem parts_symbol (s : Symbol) (hd : s ≠ .dot) (hs : s ≠ .scope) : Parts (.symbol s) :=
  ⟨by simp [joinsNext, hd, hs], fun before after => wordsBetween_other before _ after (by simp)⟩

theorem parts_keyword (w : List UInt8) (h : Text.ofAscii w ∈ keywords) : Parts (.word w) :=
  ⟨rfl, fun before after => by simp [wordsBetween_word, h]⟩

theorem Rank.Spells.parts {r : Rank} {l : Lexeme} {op : BinaryOp} (h : r.Spells l op) :
    Parts l := by
  cases h with
  | orWord => exact parts_keyword _ (by decide +kernel)
  | andWord => exact parts_keyword _ (by decide +kernel)
  | _ => exact parts_symbol _ (by decide) (by decide)

theorem SpellsSign.parts {l : Lexeme} {op : UnaryOp} (h : SpellsSign l op) : Parts l := by
  cases h <;> exact parts_symbol _ (by decide) (by decide)

section

variable {before after : List Lexeme} {l : Lexeme}

theorem Loose.left (h : Loose before after) (hl : Parts l) (rest : List Lexeme) :
    Loose before (l :: rest) := by
  refine ⟨h.before, ?_⟩
  rintro he
  cases Option.some.inj he
  cases hl.loose

theorem Loose.right (h : Loose before after) (hl : Parts l) (init : List Lexeme) :
    Loose (init ++ [l]) after :=
  ⟨by simp [hl.loose], h.after⟩

theorem wordsBetween_behind (hl : Parts l) (ls : List Lexeme) :
    wordsBetween before (l :: ls) after = wordsBetween (before ++ [l]) ls after := by
  rw [wordsBetween_cons, hl.silent, List.nil_append]

theorem wordsBetween_around (hl : Parts l) (ls ks : List Lexeme) :
    wordsBetween before (ls ++ l :: ks) after
      = wordsBetween before ls (l :: (ks ++ after)) ++ wordsBetween (before ++ ls ++ [l]) ks after := by
  rw [wordsBetween_append, wordsBetween_behind hl, List.cons_append]

/-- The words of a path are joined, the first one to what is after it and the others to what is
before them. -/
theorem wordsBetween_path (ws : List (List UInt8)) :
    wordsBetween before (pathLexemes ws) after = [] := by
  induction ws generalizing before with
  | nil => rfl
  | cons w ws ih =>
    have hpath : pathLexemes (w :: ws) = .symbol .scope :: .word w :: pathLexemes ws := rfl
    have hscope := wordsBetween_other before (.symbol .scope) (.word w :: pathLexemes ws ++ after)
      (by simp)
    rw [hpath, wordsBetween_cons, hscope, wordsBetween_cons, wordsBetween_word, ih]
    simp [joinsNext]

end

theorem Derives.freeNames {p : Phrase} {ls : List Lexeme} {x : Expr} (h : Derives p ls x) :
    ∀ before after, Loose before after → wordsBetween before ls after = x.names := by
  have question := parts_symbol .question (by decide) (by decide)
  have colon := parts_symbol .colon (by decide) (by decide)
  have comma := parts_symbol .comma (by decide) (by decide)
  have lparen := parts_symbol .lparen (by decide) (by decide)
  have rparen := parts_symbol .rparen (by decide) (by decide)
  have lbracket := parts_symbol .lbracket (by decide) (by decide)
  have rbracket := parts_symbol .rbracket (by decide) (by decide)
  induction h with
  | plain _ ih => exact ih
  | cond _ _ _ ihc iha ihb =>
    intro before after hl
    rw [wordsBetween_around question, wordsBetween_around colon, ihc _ _ (hl.left question _),
      iha _ _ ((hl.left colon _).right question _), ihb _ _ (hl.right colon _), names_cond,
      List.append_assoc]
  | single _ ih => exact ih
  | joined _ hop _ ihx ihy =>
    intro before after hl
    rw [wordsBetween_around hop.parts, ihx _ _ (hl.left hop.parts _),
      ihy _ _ (hl.right hop.parts _), names_binary]
  | negated _ ih =>
    intro before after hl
    have hnot := parts_keyword (Text.utf8 "not") (by decide +kernel)
    rw [wordsBetween_behind hnot, ih _ _ (hl.right hnot _), names_unary]
  | affirmed _ ih => exact ih
  | folded _ ih =>
    intro before after hl
    have hminus := SpellsSign.neg.parts
    rw [wordsBetween_behind hminus, ih _ _ (hl.right hminus _), names_int, names_int]
  | sign hop _ _ ih =>
    intro before after hl
    rw [wordsBetween_behind hop.parts, ih _ _ (hl.right hop.parts _), names_unary]
  | unsigned _ ih => exact ih
  | bare _ ih => exact ih
  | dotted _ w ih =>
    intro before after hl
    have hdot (xs) : wordsBetween xs [.symbol .dot] (.word w :: after) = [] :=
      wordsBetween_other xs _ _ (by simp)
    have hword (xs) : wordsBetween (xs ++ [.symbol .dot]) [.word w] after = [] := by
      simp [wordsBetween_word, joinsNext]
    have hx := ih before (.symbol .dot :: .word w :: after) ⟨hl.before, by simp⟩
    rw [wordsBetween_append, wordsBetween_cons, List.singleton_append, hdot, hword, names_attr]
    simpa using hx
  | indexed _ _ ihx ihi =>
    intro before after hl
    rw [wordsBetween_around lbracket, wordsBetween_around rbracket, ihx _ _ (hl.left lbracket _),
      ihi _ _ ((hl.left rbracket _).right lbracket _), wordsBetween_nil, List.append_nil,
      names_index]
  | int | float | str => intro before after _; exact wordsBetween_other before _ after (by simp)
  | yes | no =>
    intro before after _
    exact (parts_keyword _ (by decide +kernel)).silent before after
  | name hw =>
    intro before after hl
    rw [wordsBetween_word, if_neg, names_name]
    simpa [hw, hl.before] using hl.after
  | member hw ws v =>
    intro before after _
    have hpath : (pathLexemes (ws ++ [v]) ++ after).head? = some (.symbol .scope) := by
      cases ws <;> rfl
    rw [wordsBetween_cons, wordsBetween_path, wordsBetween_word, if_pos (by simp [hpath]),
      names_member, List.append_nil]
  | group _ ih =>
    intro before after hl
    rw [wordsBetween_behind lparen, wordsBetween_around rparen, wordsBetween_nil, List.append_nil,
      ih _ _ ((hl.left rparen _).right lparen _)]
  | empty =>
    intro before after _
    rw [wordsBetween_behind lbracket, rbracket.silent, names_list, List.flatMap_nil]
  | list _ ih =>
    intro before after hl
    rw [wordsBetween_behind lbracket, wordsBetween_around rbracket, wordsBetween_nil,
      List.append_nil, ih _ _ ((hl.left rbracket _).right lbracket _)]
  | last _ ih =>
    intro before after hl
    rw [ih _ _ hl, names_list, List.flatMap_singleton]
  | next _ _ ihx ihr =>
    intro before after hl
    rw [wordsBetween_around comma, ihx _ _ (hl.left comma _), ihr _ _ (hl.right comma _),
      names_list, names_list, List.flatMap_cons]

theorem freeWords_derives (ls : List Lexeme) (x : Expr) (h : Derives .conditional ls x) :
    freeWords ls = x.names := by
  rw [freeWords_eq]
  exact h.freeNames [] [] ⟨rfl, by simp⟩

/-- The references of the tree of a text are the words that stand free in it and are not reserved,
each once and in the order in which they first appear; the tree is constant exactly if there are
none and no reserved word stands free either. -/
theorem refs_firstOccurrences (src : String) (x : Expr) (h : parse src = .ok x) :
    ∃ ts, Token.scan (Text.utf8 src) = .ok ts ∧
      FirstOccurrences ((freeWords (ts.map Token.lexeme)).filter fun id => !isReserved id) x.refs ∧
      (x.isConst = true ↔
        x.refs = [] ∧ ∀ id ∈ freeWords (ts.map Token.lexeme), isReserved id = false) := by
  obtain ⟨ts, hts, hd⟩ := (parse_ok src x).mp h
  have hnames := freeWords_derives _ x hd
  refine ⟨ts, hts, ?_, ?_⟩
  · rw [hnames]
    exact firstOccurrences_distinct _
  · rw [hnames, isConst, List.isEmpty_iff]
    constructor
    · intro hn
      simp [refs, hn, distinct, distinctOnto]
    · rintro ⟨hrefs, hfree⟩
      rw [List.eq_nil_iff_forall_not_mem]
      intro id hid
      have hmem : id ∈ x.refs := by simp [refs, hid, hfree id hid]
      rw [hrefs] at hmem
      cases hmem

theorem refs_firstOccurrences_mixed :
    let src := "kind == t::k ? hdr.kind + items[idx] : _root.len - kind"
    ∃ x ts, parse src = .ok x ∧ Token.scan (Text.utf8 src) = .ok ts ∧
      freeWords (ts.map Token.lexeme) = ["kind", "hdr", "items", "idx", "_root", "kind"] ∧
      FirstOccurrences ["kind", "hdr", "items", "idx", "kind"] x.refs ∧ x.isConst = false := by
  have hparse : parse "kind == t::k ? hdr.kind + items[idx] : _root.len - kind"
      = .ok (.cond (.binary .eq (.name "kind") (.member ["t"] "k"))
          (.binary .add (.attr (.name "hdr") "kind") (.index (.name "items") (.name "idx")))
          (.binary .sub (.attr (.name "_root") "len") (.name "kind"))) := by cbv
  obtain ⟨ts, hts, hd⟩ := (parse_ok _ _).mp hparse
  have hfree : freeWords (ts.map Token.lexeme)
      = ["kind", "hdr", "items", "idx", "_root", "kind"] := freeWords_derives _ _ hd
  obtain ⟨ts', hts', hfirst, -⟩ := refs_firstOccurrences _ _ hparse
  obtain rfl : ts' = ts := Except.ok.inj (hts'.symm.trans hts)
  rw [hfree] at hfirst
  exact ⟨_, ts', hparse, hts, hfree, hfirst, rfl⟩

end Expr
end FormatFuzz
