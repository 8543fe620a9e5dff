import FormatFuzz.Proofs.Yaml.Scanning

/-!
# Steps of the scanner

A step is one token and the blanks behind it. Where the scanner stands is told by the text ahead,
its column, the columns of the open blocks and the kinds of the tokens so far; each lemma says what
one token of a text in block form makes of that. A run is a chain of steps.
-/

set_option autoImplicit false

namespace FormatFuzz.Yaml.Token.Scan

/-- One scanner comes to stand where another stands: the tokens they end with are the same. -/
def Reaches (s t : Scan) : Prop :=
  ∃ k, k + t.rest.length ≤ s.rest.length ∧ ∀ n, run (n + 1 + k) s = run (n + 1) t

theorem Reaches.trans {s t u : Scan} (h : Reaches s t) (h' : Reaches t u) : Reaches s u := by
  obtain ⟨k, hk, hst⟩ := h
  obtain ⟨j, hj, htu⟩ := h'
  refine ⟨j + k, by omega, fun n => ?_⟩
  calc run (n + 1 + (j + k)) s = run (n + j + 1 + k) s := congrArg (run · s) (by omega)
    _ = run (n + 1 + j) t := (hst (n + j)).trans (congrArg (run · t) (by omega))
    _ = run (n + 1) u := htu n

theorem Reaches.run_eq {s t : Scan} (h : Reaches s t) :
    ∃ n, run (s.rest.length + 1) s = run (n + 1) t := by
  obtain ⟨k, hk, hrun⟩ := h
  refine ⟨s.rest.length - k, ?_⟩
  rw [← hrun]
  exact congrArg (run · s) (by omega)

/-- Where a token begins, or the end of the text. -/
structure Waits (s : Scan) : Prop where
  skips : s.skips = false
  ink : ∀ c ∈ s.rest.head?, isInk c = true ∧ c ≠ '#'

theorem Waits.toNextToken {s : Scan} (h : s.Waits) (n : Nat) (b : Bool) : s.toNextToken n b = s :=
  toNextToken_ink s n b h.skips h.ink

theorem settle_eq (s : Scan) (h : s.skips = false) : s.settle = s := by
  simp [settle, h]

theorem unrollTo_eq (s : Scan) (col : Int) (h : s.flow ≠ 0 ∨ s.indent ≤ col) :
    s.unrollTo col = s := by
  unfold unrollTo
  cases s.indents with
  | nil => rfl
  | cons i is =>
    refine if_neg ?_
    rcases h with h | h
    · simp [h]
    · simp only [Bool.and_eq_true, decide_eq_true_eq]
      omega

/-- The scanner with the innermost block closed. -/
def closed (s : Scan) (i : Int) (is : List Int) : Scan :=
  { s.push .blockEnd s.line with indent := i, indents := is }

theorem unrollTo_closed (s : Scan) (col i : Int) (is : List Int) (hf : s.flow = 0)
    (hi : s.indents = i :: is) (h : col < s.indent) :
    s.unrollTo col = (s.closed i is).unrollTo col := by
  unfold unrollTo
  rw [hi, unroll, if_pos (by simp [hf, h])]
  rfl

theorem reaches_advance (s t : Scan) (h : s.toNextToken (s.rest.length + 1) false = t)
    (ht : t.Waits) (hle : t.rest.length ≤ s.rest.length) : Reaches s t := by
  refine ⟨0, by omega, fun n => ?_⟩
  unfold run
  simp only [ht.toNextToken, h]

theorem reaches_closed (s : Scan) (i : Int) (is : List Int) (h : s.Waits) (hf : s.flow = 0)
    (hi : s.indents = i :: is) (hcol : (s.col : Int) < s.indent) : Reaches s (s.closed i is) := by
  have hclosed : (s.closed i is).Waits := ⟨h.skips, h.ink⟩
  refine ⟨0, by simp [closed, push], fun n => ?_⟩
  unfold run
  simp only
  rw [h.toNextToken, hclosed.toNextToken, settle_eq s h.skips, settle_eq _ hclosed.skips,
    unrollTo_closed s s.col i is hf hi hcol]
  rfl

theorem reaches_fetch (s t : Scan) (c : Char) (r : List Char) (h : s.Waits)
    (hle : s.flow ≠ 0 ∨ s.indent ≤ s.col) (hr : s.rest = c :: r) (hfetch : s.fetch c r = .ok t)
    (hdeep : t.isTooDeep = false) (hmarker : t.marker = none)
    (hshort : t.rest.length < s.rest.length) : Reaches s t := by
  refine ⟨1, by omega, fun n => ?_⟩
  rw [run]
  simp only
  rw [h.toNextToken, settle_eq s h.skips, unrollTo_eq s s.col hle, hr]
  simp only [hfetch, hdeep, finished, hmarker]
  rfl

theorem atMarker_eq (s : Scan)
    (h : s.col ≠ 0 ∨ ¬ ['-', '-', '-'] <+: s.rest ∧ ¬ ['.', '.', '.'] <+: s.rest) :
    s.atMarker = false := by
  unfold atMarker
  rcases h with h | ⟨hdash, hdot⟩
  · simp [h]
  · split
    · rename_i a b c r hr
      rw [hr] at hdash hdot
      have hdash' : ¬ (a = '-' ∧ b = '-' ∧ c = '-') := by
        rintro ⟨rfl, rfl, rfl⟩
        exact hdash ⟨r, rfl⟩
      have hdot' : ¬ (a = '.' ∧ b = '.' ∧ c = '.') := by
        rintro ⟨rfl, rfl, rfl⟩
        exact hdot ⟨r, rfl⟩
      simp only [← Bool.not_eq_true, Bool.and_eq_true, Bool.or_eq_true, beq_iff_eq, and_assoc]
      rintro ⟨-, h | h, -⟩
      · exact hdash' h
      · exact hdot' h
    · simp

theorem prefix_of_append (p cs r : List Char) (d : Char) (hd : d ∉ p) (h : p <+: cs ++ d :: r) :
    p <+: cs := by
  rcases List.prefix_or_prefix_of_prefix h (List.prefix_append cs (d :: r)) with h' | ⟨q, rfl⟩
  · exact h'
  · rw [List.prefix_append_right_inj] at h
    cases q with
    | nil => simp
    | cons e q =>
      obtain ⟨rfl, -⟩ := List.cons_prefix_cons.mp h
      simp at hd

/-- Text that a plain scalar may begin with, whatever follows it. -/
structure Starts (cs : List Char) : Prop where
  plain : Plain cs
  head : ∃ c w, cs = c :: w ∧ isInk c = true ∧ c ∉ Yaml.indicators ∧
    ((c = '?' ∨ c = ':' ∨ c = '-') → ∃ d v, w = d :: v ∧ isInk d = true)
  dashes : ¬ ['-', '-', '-'] <+: cs
  dots : ¬ ['.', '.', '.'] <+: cs

theorem Starts.atMarker {cs r : List Char} {d : Char} (h : Starts cs) (s : Scan)
    (hr : s.rest = cs ++ d :: r) (hd : d = '\n' ∨ d = ':') : s.atMarker = false := by
  refine atMarker_eq s (.inr ⟨fun hp => ?_, fun hp => ?_⟩)
  · exact h.dashes (prefix_of_append _ cs r d (by rcases hd with rfl | rfl <;> decide) (hr ▸ hp))
  · exact h.dots (prefix_of_append _ cs r d (by rcases hd with rfl | rfl <;> decide) (hr ▸ hp))

theorem Starts.opens {c : Char} {w : List Char} (h : Starts (c :: w)) (r : List Char) :
    Opens c (w ++ r) := by
  obtain ⟨d, v, hcons, hink, hind, hmark⟩ := h.head
  obtain ⟨rfl, rfl⟩ := List.cons.inj hcons
  refine ⟨hink, hind, fun hc => ?_⟩
  obtain ⟨d, v, rfl, hd⟩ := hmark hc
  rw [List.cons_append, atBlank_cons, hd, Bool.not_true]

theorem Starts.hash {c : Char} {w : List Char} (h : Starts (c :: w)) : c ≠ '#' := by
  rintro rfl
  exact (h.opens []).2.1 (by decide)

theorem Starts.blank {c : Char} {w : List Char} (h : Starts (c :: w)) : c ≠ ' ' := by
  rintro rfl
  exact absurd (h.opens []).1 (by decide)

/-- What is known of a scanner in block form: the text ahead, its column, the columns of the open
blocks, the tokens so far, and whether a key may begin. -/
structure At (s : Scan) (rest : List Char) (col : Nat) (stack : List Int) (ks : List Kind)
    (allowed : Bool) : Prop where
  rest : s.rest = rest
  col : s.col = col
  stack : s.indent :: s.indents = stack
  kinds : s.tokens.toList.map Token.kind = ks
  allowed : s.keyAllowed = allowed
  flow : s.flow = 0
  keys : ∃ k, s.keys = [k] ∧ ∀ m ∈ k, m.required = false
  marker : s.marker = none
  skips : s.skips = false

theorem dropKey_eq (s : Scan) (h : ∃ k, s.keys = [k] ∧ ∀ m ∈ k, m.required = false) :
    s.dropKey = .ok (s.keyed [none]) := by
  obtain ⟨k, hk, hm⟩ := h
  unfold dropKey
  rw [hk]
  cases k with
  | none =>
    rw [← hk]
    split
    · simp_all
    · rfl
  | some m => exact if_neg (by simp [hm m rfl])

section
variable {s : Scan} {r : List Char} {c : Nat} {stack : List Int} {ks : List Kind} {a : Bool}

theorem At.waits (h : s.At r c stack ks a) (hr : ∀ d ∈ r.head?, isInk d = true ∧ d ≠ '#') :
    s.Waits := ⟨h.skips, h.rest ▸ hr⟩

theorem At.isTooDeep (h : s.At r c stack ks a) (hd : stack.length ≤ depthLimit + 1) :
    s.isTooDeep = false := by
  have hstack := congrArg List.length h.stack
  simp only [List.length_cons] at hstack
  simp only [Scan.isTooDeep, h.flow, Bool.or_eq_false_iff, decide_eq_false_iff_not]
  omega

theorem At.push (h : s.At r c stack ks a) (k : Kind) (line : Nat) :
    (s.push k line).At r c stack (ks ++ [k]) a :=
  { h with kinds := by simp [Scan.push, h.kinds] }

/-- The key that may begin where the scanner stands. -/
def keyMark (s : Scan) : KeyMark where
  required := s.indent == (s.col : Int)
  token := s.tokens.size
  index := s.index
  line := s.line
  col := s.col

theorem At.saveKey_eq (h : s.At r c stack ks true) :
    s.saveKey = .ok (s.keyed [some s.keyMark]) := by
  rw [Scan.saveKey, if_pos h.allowed, dropKey_eq s h.keys, ok_bind]
  simp [keyed, keyMark, h.flow]

/-- Where no block begins, a key that is given up is no fault. -/
theorem At.saveKey (h : s.At r c stack ks a) (hc : s.indent ≠ s.col) :
    ∃ keys, s.saveKey = .ok (s.keyed keys) ∧ (s.keyed keys).At r c stack ks a := by
  cases a with
  | true =>
    refine ⟨_, h.saveKey_eq, { h with keys := ⟨some s.keyMark, rfl, ?_⟩ }⟩
    rintro m ⟨⟩
    simpa [keyMark] using hc
  | false =>
    refine ⟨s.keys, ?_, h⟩
    rw [Scan.saveKey, if_neg (by simp [h.allowed])]
    rfl

theorem At.onLine (h : s.At r c stack ks a) (t : List Char) :
    (s.onLine t).At (ink t) (lead t).length stack ks a :=
  { h with rest := rfl, col := rfl }

theorem At.past (h : s.At r c stack ks a) (w r' : List Char) :
    (s.past w r').At r' (c + w.length) stack ks a :=
  { h with rest := rfl, col := by simp [Scan.past, h.col] }

theorem At.allow (h : s.At r c stack ks a) (b : Bool) :
    (s.allowing b).At r c stack ks b :=
  { h with allowed := rfl }

theorem At.free (h : s.At r c stack ks a) : (s.keyed [none]).At r c stack ks a :=
  { h with keys := ⟨none, rfl, nofun⟩ }

/-- Blanks on a line are passed over. -/
theorem At.blanks (h : s.At r c stack ks a) (hr : Clear r) :
    ∃ t, Reaches s t ∧ t.At (ink r) (c + (lead r).length) stack ks a := by
  have hat := h.past (lead r) (ink r)
  have hnext := toNextToken_blanks s (s.rest.length + 1) false r h.rest (by simp [h.rest])
    h.skips hr
  refine ⟨_, reaches_advance s _ hnext (hat.waits hr) ?_, hat⟩
  rw [hat.rest, h.rest]
  exact length_ink_le r

theorem At.blank {d : Char} {r' : List Char} (h : s.At (' ' :: d :: r') c stack ks a)
    (hd : isInk d = true ∧ d ≠ '#') :
    ∃ t, Reaches s t ∧ t.At (d :: r') (c + 1) stack ks a := by
  have hne : d ≠ ' ' := by
    rintro rfl
    exact absurd hd.1 (by decide)
  have hink : ink (' ' :: d :: r') = d :: r' := by simp [ink, hne]
  have hlead : lead (' ' :: d :: r') = [' '] := by simp [lead, hne]
  obtain ⟨t, hst, ht⟩ := h.blanks (r := ' ' :: d :: r') (by rw [Clear, hink]; rintro _ ⟨⟩; exact hd)
  rw [hink, hlead] at ht
  exact ⟨t, hst, ht⟩

/-- So are a line break and the blanks before the next token. -/
theorem At.newline {t : List Char} (h : s.At ('\n' :: t) c stack ks a) (ht : Clear t) :
    ∃ u, Reaches s u ∧ u.At (ink t) (lead t).length stack ks true := by
  have hat := (h.onLine t).allow true
  have hnext := toNextToken_newline s (s.rest.length + 1) false t h.rest (by simp [h.rest]) h.skips
    h.flow ht
  refine ⟨_, reaches_advance s _ hnext (hat.waits ht) ?_, hat⟩
  rw [hat.rest, h.rest, List.length_cons]
  exact (length_ink_le t).trans (Nat.le_succ _)

/-- The scanner in a new block. -/
def opened (s : Scan) (col : Nat) : Scan :=
  { s with indents := s.indent :: s.indents, indent := col }

/-- The scanner with a token put in at a place. -/
def inserting (s : Scan) (i : Nat) (k : Kind) (line : Nat) : Scan :=
  { s with tokens := s.tokens.insertIdxIfInBounds i ⟨k, line⟩ }

theorem roll_opened (s : Scan) (col line : Nat) (place : Option Nat) (k : Kind) (hf : s.flow = 0)
    (h : s.indent < col) :
    s.roll col place k line = match place with
      | some i => (s.opened col).inserting i k line
      | none => (s.opened col).push k line :=
  if_pos (by simp [hf, h])

theorem roll_eq (s : Scan) (col line : Nat) (place : Option Nat) (k : Kind)
    (h : (col : Int) ≤ s.indent) : s.roll col place k line = s :=
  if_neg (by simp [h])

/-- A block at a column begins, or the innermost one stands there already. -/
inductive Rolled (c : Nat) (k : Kind) : List Int → List Int → List Kind → List Kind → Prop where
  | opens (i : Int) (is : List Int) (ks : List Kind) (h : i < c) :
    Rolled c k (i :: is) (c :: i :: is) ks (ks ++ [k])
  | stays (is : List Int) (ks : List Kind) : Rolled c k (c :: is) (c :: is) ks ks

theorem At.roll {k : Kind} {stack' : List Int} {ks' : List Kind} (h : s.At r c stack ks a)
    (hroll : Rolled c k stack stack' ks ks') (line : Nat) :
    (s.roll s.col none k line).At r c stack' ks' a := by
  rw [h.col]
  cases hroll with
  | opens i is ks hi =>
    obtain ⟨hindent, hindents⟩ := List.cons.inj h.stack
    rw [roll_opened s c line none k h.flow (hindent ▸ hi)]
    exact { h with
      stack := by rw [← hindent, ← hindents]; rfl
      kinds := by simp [Scan.push, opened, h.kinds] }
  | stays is ks =>
    obtain ⟨hindent, hindents⟩ := List.cons.inj h.stack
    rw [roll_eq s c line none k (Int.le_of_eq hindent.symm)]
    exact h

/-- A token of one character. -/
theorem At.mark (h : s.At r c stack ks a) (d : Char) (r' : List Char) (hr : r = d :: r')
    (hd : Token.isBreak d = false) (k : Kind) (line : Nat) :
    (s.step.push k line).At r' (c + 1) stack (ks ++ [k]) a := by
  rw [step_char s d r' (h.rest.trans hr) hd]
  exact (h.past [d] r').push k line

theorem At.dash {stack' : List Int} {ks' : List Kind} (h : s.At ('-' :: r) c stack ks true)
    (hr : atBlank r = true) (hroll : Rolled c .sequenceStart stack stack' ks ks')
    (hle : s.indent ≤ c) (hd : stack'.length ≤ depthLimit + 1) :
    ∃ t, Reaches s t ∧ t.At r (c + 1) stack' (ks' ++ [Kind.blockEntry]) true := by
  have hmarker : s.atMarker = false := by
    refine atMarker_eq s (.inr ?_)
    rw [h.rest]
    constructor <;> rintro ⟨u, hu⟩ <;> cases hu
    simp [atBlank, isBlank, Token.isBreak] at hr
  have hrolled := h.roll hroll s.line
  have hat := (hrolled.free.allow true).mark '-' r rfl (by decide) .blockEntry s.line
  have hfetch := fetch_dash s r hmarker h.flow h.allowed hr
  rw [dropKey_eq _ hrolled.keys, ok_bind] at hfetch
  refine ⟨_, reaches_fetch s _ '-' r (h.waits (by simp [isInk, isBlank, Token.isBreak]))
    (.inr (h.col ▸ hle)) h.rest hfetch (hat.isTooDeep hd) hat.marker ?_, hat⟩
  rw [hat.rest, h.rest]
  simp

/-- A plain scalar up to the end of its line is one token. -/
theorem At.plain {cs t : List Char} {i : Int} {is : List Int}
    (h : s.At (cs ++ '\n' :: t) c (i :: is) ks a) (hcs : Starts cs) (hi : i < c) (ht : Clear t)
    (hnext : ink t = [] ∨ ((lead t).length : Int) ≤ i) (hd : is.length ≤ depthLimit) :
    ∃ u, Reaches s u ∧ u.At (ink t) (lead t).length (i :: is)
      (ks ++ [Kind.scalar .plain (String.ofList cs)]) true := by
  obtain ⟨hindent, hindents⟩ := List.cons.inj h.stack
  obtain ⟨d, w, rfl⟩ : ∃ d w, cs = d :: w := ⟨_, _, hcs.head.choose_spec.choose_spec.1⟩
  have hmarker := hcs.atMarker s h.rest (.inl rfl)
  obtain ⟨keys, hsave, hkeys⟩ := h.saveKey (by rw [hindent, h.col]; omega)
  have hfetch := fetch_plain s d (w ++ '\n' :: t) hmarker h.flow (hcs.opens _)
  have hscalar := plainScalar_line (d :: w) t ((s.keyed keys).rest.length + 1)
    ((s.keyed keys).allowing false) [] [] ((s.keyed keys).indent + 1) (by simp) hcs.plain
    (by rintro _ ⟨⟩; exact ⟨hcs.blank, hcs.hash⟩) hmarker h.rest
    (by rw [hkeys.rest, List.length_append]; omega) h.flow
    (by change s.indent + 1 ≤ s.col; rw [hindent, h.col]; omega) ht
    (hnext.imp_right fun hle => by change _ < s.indent + 1; rw [hindent]; omega)
  rw [hsave, ok_bind, hscalar, ok_bind] at hfetch
  have hat := ((((hkeys.allow false).past (d :: w) ('\n' :: t)).onLine t).allow true).push
    (.scalar .plain (String.ofList (d :: w))) s.line
  simp only [List.append_nil, broken_saidLine, if_true, text_saidLine] at hfetch
  refine ⟨_, reaches_fetch s _ d (w ++ '\n' :: t) (h.waits ?_) (.inr ?_) h.rest hfetch
    (hat.isTooDeep ?_) hat.marker ?_, hat⟩
  · rintro _ ⟨⟩
    exact ⟨(hcs.opens []).1, hcs.hash⟩
  · rw [hindent, h.col]
    omega
  · simpa using hd
  · have := length_ink_le t
    rw [hat.rest, h.rest]
    simp only [List.length_append, List.length_cons]
    omega

/-- So is text between double quotes that nothing is escaped in. -/
theorem At.quoted {w r' : List Char} (h : s.At ('"' :: w ++ '"' :: r') c stack ks a)
    (hw : ∀ d ∈ w, isInk d = true ∧ d ≠ '"' ∧ d ≠ '\\') (hi : s.indent < c)
    (hd : stack.length ≤ depthLimit + 1) :
    ∃ u, Reaches s u ∧ u.At r' (c + w.length + 2) stack
      (ks ++ [Kind.scalar .double (String.ofList w)]) false := by
  have hmarker : s.atMarker = false := by
    refine atMarker_eq s (.inr ?_)
    rw [h.rest]
    constructor <;> rintro ⟨u, hu⟩ <;> cases hu
  obtain ⟨keys, hsave, hkeys⟩ := h.saveKey (by rw [h.col]; omega)
  have hfetch := fetch_quote s (w ++ '"' :: r') hmarker
  have hstep := step_char ((s.keyed keys).allowing false) '"' (w ++ '"' :: r') h.rest (by decide)
  have hscalar := quotedScalar_bare w r'
    (((s.keyed keys).allowing false).past ['"'] (w ++ '"' :: r')) (s.keyed keys).rest.length rfl
    (Nat.succ_pos _) hw
  rw [hsave, ok_bind, hstep, hscalar, ok_bind] at hfetch
  simp only [past_past, text_said] at hfetch
  have hat := (((hkeys.allow false).past (['"'] ++ (w ++ ['"'])) r').push
    (.scalar .double (String.ofList w)) s.line)
  rw [show c + (['"'] ++ (w ++ ['"'])).length = c + w.length + 2 by simp; omega] at hat
  refine ⟨_, reaches_fetch s _ '"' (w ++ '"' :: r') (h.waits ?_) (.inr ?_) h.rest hfetch
    (hat.isTooDeep hd) hat.marker ?_, hat⟩
  · rintro _ ⟨⟩
    decide
  · rw [h.col]
    omega
  · rw [hat.rest, h.rest]
    simp only [List.length_append, List.length_cons]
    omega

theorem toList_insertAt {α : Type} (xs : Array α) (l m : List α) (x : α) (h : xs.toList = l ++ m) :
    (xs.insertIdxIfInBounds l.length x).toList = l ++ x :: m := by
  have hinsert : ∀ l : List α, (l ++ m).insertIdx l.length x = l ++ x :: m := by
    intro l
    induction l with
    | nil => rfl
    | cons y l ih => exact List.insertIdx_succ_cons.trans (congrArg (y :: ·) ih)
  have hsize : l.length ≤ xs.size := by
    rw [← Array.length_toList, h, List.length_append]
    omega
  rw [Array.insertIdxIfInBounds, dif_pos hsize, Array.toList_insertIdx, h, hinsert]

/-- The scanner behind the word of a key, before its colon. -/
def behindKey (s : Scan) (cs r : List Char) : Scan :=
  (((s.keyed [some s.keyMark]).allowing false).past cs (':' :: r)).push
    (.scalar .plain (String.ofList cs)) s.line

theorem behindKey_col (s : Scan) (cs r : List Char) :
    (s.behindKey cs r).col = s.col + cs.length := rfl

theorem At.reaches_behindKey {cs : List Char} (h : s.At (cs ++ ':' :: r) c stack ks true)
    (hcs : Starts cs) (hink : ∀ d ∈ cs, isInk d = true) (hr : atBlank r = true)
    (hle : s.indent ≤ c) (hd : stack.length ≤ depthLimit + 1) : Reaches s (s.behindKey cs r) := by
  obtain ⟨d, w, rfl⟩ : ∃ d w, cs = d :: w := ⟨_, _, hcs.head.choose_spec.choose_spec.1⟩
  have hmarker := hcs.atMarker s h.rest (.inr rfl)
  have hfetch := fetch_plain s d (w ++ ':' :: r) hmarker h.flow (hcs.opens _)
  have hscalar := plainScalar_word (d :: w) r (s.keyed [some s.keyMark]).rest.length
    ((s.keyed [some s.keyMark]).allowing false) ((s.keyed [some s.keyMark]).indent + 1) (by simp)
    hink (fun e he => (hcs.plain.ends e he).1) (by simpa using hcs.hash) hmarker h.rest hr h.flow
  rw [h.saveKey_eq, ok_bind, hscalar, ok_bind] at hfetch
  simp only [broken_said, Bool.false_eq_true, if_false, text_said] at hfetch
  refine reaches_fetch s _ d (w ++ ':' :: r) (h.waits ?_) (.inr (h.col ▸ hle)) h.rest hfetch
    (h.isTooDeep hd) h.marker ?_
  · rintro _ ⟨⟩
    exact ⟨(hcs.opens []).1, hcs.hash⟩
  · rw [h.rest]
    simp only [behindKey, Scan.push, past_rest, List.length_append, List.length_cons]
    omega

theorem keys_roll (s : Scan) (col : Nat) (place : Option Nat) (k : Kind) (line : Nat) :
    (s.roll col place k line).keys = s.keys := by
  unfold roll
  split
  · cases place <;> rfl
  · rfl

theorem valueToken_key (s : Scan) (k : KeyMark) (hkeys : s.keys = [some k])
    (hline : k.line = s.line) (hindex : s.index ≤ k.index + 1024) :
    s.valueToken = .ok (((((s.inserting k.token .key k.line).roll k.col (some k.token) .mappingStart
      k.line).keyed [none]).allowing false).step.push .value s.line) := by
  have hlive : (k.line == s.line && decide (s.index ≤ k.index + 1024)) = true := by
    simp [hline, hindex]
  have hrest : ((s.inserting k.token .key k.line).roll k.col (some k.token) .mappingStart
      k.line).keys.drop 1 = [] := by
    rw [keys_roll, inserting, hkeys]
    rfl
  unfold Scan.valueToken
  simp only [hkeys, hlive, if_true]
  rw [← hkeys, ← hrest]
  rfl

/-- A key that may begin becomes one, and the first key of a mapping begins the mapping. -/
theorem At.rolledKey {cs : List Char} {stack' : List Int} {ks' : List Kind}
    (h : s.At (cs ++ ':' :: r) c stack ks true)
    (hroll : Rolled c .mappingStart stack stack' ks ks') :
    ((((s.behindKey cs r).inserting s.tokens.size .key s.line).roll s.col (some s.tokens.size)
      .mappingStart s.line).keyed [none]).At (':' :: r) (c + cs.length) stack'
      (ks' ++ [Kind.key, .scalar .plain (String.ofList cs)]) false := by
  have hscalar : ((s.behindKey cs r).tokens).toList =
      s.tokens.toList ++ [⟨.scalar .plain (String.ofList cs), s.line⟩] := by
    simp [behindKey, Scan.push]
    rfl
  have hkey := toList_insertAt _ s.tokens.toList _ ⟨.key, s.line⟩ hscalar
  have hstart := toList_insertAt _ s.tokens.toList _ ⟨.mappingStart, s.line⟩ hkey
  have hcol : (s.behindKey cs r).col = c + cs.length := by rw [behindKey_col, h.col]
  cases hroll with
  | opens i is ks hi =>
    obtain ⟨hindent, hindents⟩ := List.cons.inj h.stack
    rw [roll_opened ((s.behindKey cs r).inserting s.tokens.size .key s.line) _ _ _ _ h.flow
      (show s.indent < s.col by rw [hindent, h.col]; exact hi)]
    exact { h with
      rest := rfl
      col := hcol
      stack := by rw [← hindent, ← hindents, ← h.col]; rfl
      kinds := (congrArg (List.map Token.kind) hstart).trans (by simp [h.kinds])
      allowed := rfl
      keys := ⟨none, rfl, nofun⟩ }
  | stays is ks =>
    obtain ⟨hindent, hindents⟩ := List.cons.inj h.stack
    rw [roll_eq ((s.behindKey cs r).inserting s.tokens.size .key s.line) _ _ _ _
      (show (s.col : Int) ≤ s.indent from Int.le_of_eq (by rw [hindent, h.col]))]
    exact { h with
      rest := rfl
      col := hcol
      kinds := (congrArg (List.map Token.kind) hkey).trans (by simp [h.kinds])
      allowed := rfl
      keys := ⟨none, rfl, nofun⟩ }

theorem At.key {cs : List Char} {stack' : List Int} {ks' : List Kind}
    (h : s.At (cs ++ ':' :: r) c stack ks true) (hcs : Starts cs)
    (hink : ∀ d ∈ cs, isInk d = true) (hlen : cs.length ≤ 1024) (hr : atBlank r = true)
    (hroll : Rolled c .mappingStart stack stack' ks ks') (hle : s.indent ≤ c)
    (hd : stack'.length ≤ depthLimit + 1) :
    ∃ t, Reaches s t ∧ t.At r (c + cs.length + 1) stack'
      (ks' ++ [Kind.key, .scalar .plain (String.ofList cs), .value]) false := by
  have hpos : 0 < cs.length := by
    obtain ⟨d, w, rfl, -⟩ := hcs.head
    simp
  have hstack : stack.length ≤ stack'.length := by cases hroll <;> simp
  have hbehind := h.reaches_behindKey hcs hink hr hle (hstack.trans hd)
  have hat := ((h.rolledKey hroll).allow false).mark ':' r rfl (by decide) .value s.line
  have hmarker : (s.behindKey cs r).atMarker = false :=
    atMarker_eq _ (.inl (by rw [behindKey_col]; omega))
  have hfetch := (fetch_colon (s.behindKey cs r) r hmarker hr).trans
    (valueToken_key _ s.keyMark rfl rfl (Nat.add_le_add_left hlen s.index))
  have hwaits : (s.behindKey cs r).Waits := ⟨h.skips, by rintro _ ⟨⟩; decide⟩
  refine ⟨_, hbehind.trans (reaches_fetch _ _ ':' r hwaits (.inr ?_) rfl hfetch
    (hat.isTooDeep hd) hat.marker ?_), ?_⟩
  · have hcol := h.col
    rw [behindKey_col]
    change s.indent ≤ _
    omega
  · exact (congrArg List.length hat.rest).trans_lt (Nat.lt_succ_self r.length)
  · rw [List.append_assoc] at hat
    exact hat

/-- The scanner behind the bracket that opens a collection in flow form. -/
def entered (s : Scan) (keys : List (Option KeyMark)) (o : Char) (r : List Char) : Scan :=
  (((s.keyed keys).inside.allowing true).past [o] r).push
    (if o == '[' then .flowSequenceStart else .flowMappingStart) s.line

theorem At.reaches_entered {o : Char} {r' : List Char} (h : s.At (o :: r') c stack ks a)
    (ho : o = '[' ∨ o = '\x7b') (hi : s.indent < c) (hd : stack.length ≤ depthLimit + 1) :
    ∃ keys, Reaches s (s.entered keys o r') ∧ (s.keyed keys).At (o :: r') c stack ks a := by
  have hink : isInk o = true ∧ o ≠ '#' ∧ Token.isBreak o = false ∧ o ≠ '-' ∧ o ≠ '.' := by
    rcases ho with rfl | rfl <;> decide
  have hmarker : s.atMarker = false := by
    refine atMarker_eq s (.inr ?_)
    rw [h.rest]
    refine ⟨fun hp => ?_, fun hp => ?_⟩
    · exact hink.2.2.2.1 (List.cons_prefix_cons.mp hp).1.symm
    · exact hink.2.2.2.2 (List.cons_prefix_cons.mp hp).1.symm
  obtain ⟨keys, hsave, hkeys⟩ := h.saveKey (by rw [h.col]; omega)
  have hfetch := fetch_open s o r' hmarker ho
  rw [hsave, ok_bind,
    step_char ((s.keyed keys).inside.allowing true) o r' h.rest hink.2.2.1] at hfetch
  have hdeep : (s.entered keys o r').isTooDeep = false := by
    have := h.isTooDeep hd
    simp only [Scan.isTooDeep, Bool.or_eq_false_iff] at this ⊢
    refine ⟨?_, this.2⟩
    change decide (depthLimit < s.flow + 1) = false
    rw [h.flow]
    rfl
  refine ⟨keys, reaches_fetch s _ o r' (h.waits ?_) (.inr ?_) h.rest hfetch hdeep h.marker ?_,
    hkeys⟩
  · rintro _ ⟨⟩
    exact ⟨hink.1, hink.2.1⟩
  · rw [h.col]
    omega
  · rw [h.rest]
    exact Nat.lt_succ_self _

/-- An empty collection in flow form. -/
theorem At.brackets {o e : Char} {r' : List Char} (h : s.At (o :: e :: r') c stack ks a)
    (hoe : (o = '[' ∧ e = ']') ∨ (o = '\x7b' ∧ e = '\x7d')) (hi : s.indent < c)
    (hd : stack.length ≤ depthLimit + 1) :
    ∃ u, Reaches s u ∧ u.At r' (c + 2) stack
      (ks ++ if o == '[' then [Kind.flowSequenceStart, .flowSequenceEnd]
        else [Kind.flowMappingStart, .flowMappingEnd]) false := by
  have he : e = ']' ∨ e = '\x7d' := hoe.imp And.right And.right
  have hink : isInk e = true ∧ e ≠ '#' ∧ Token.isBreak e = false := by
    rcases he with rfl | rfl <;> decide
  obtain ⟨keys, hentered, hkeys⟩ := h.reaches_entered (hoe.imp And.left And.left) hi hd
  let u := s.entered keys o (e :: r')
  have hclose := fetch_close u e r' (atMarker_eq u (.inl (Nat.succ_ne_zero s.col))) he
  have hdrop : u.dropKey = .ok u := rfl
  have hflow : (u.flow == 0) = false := rfl
  rw [hdrop, ok_bind, hflow, if_neg (by decide),
    step_char (u.outside.allowing false) e r' rfl hink.2.2] at hclose
  have hat : ((((u.outside.allowing false).past [e] r').push
      (if e == ']' then .flowSequenceEnd else .flowMappingEnd) u.line)).At r' (c + 2) stack
      (ks ++ if o == '[' then [Kind.flowSequenceStart, .flowSequenceEnd]
        else [Kind.flowMappingStart, .flowMappingEnd]) false :=
    { hkeys with
      rest := rfl
      col := by rw [← h.col]; rfl
      kinds := by
        rcases hoe with ⟨rfl, rfl⟩ | ⟨rfl, rfl⟩ <;>
          simp [u, entered, Scan.push, Scan.past, allowing, outside, inside, keyed, h.kinds]
      allowed := rfl
      flow := by change s.flow + 1 - 1 = 0; rw [h.flow] }
  have hu : u.Waits := ⟨h.skips, by rintro _ ⟨⟩; exact ⟨hink.1, hink.2.1⟩⟩
  exact ⟨_, hentered.trans (reaches_fetch u _ e r' hu (.inl (Nat.succ_ne_zero s.flow)) rfl hclose
    (hat.isTooDeep hd) hat.marker (Nat.lt_succ_self _)), hat⟩

theorem At.run_end {u : Scan} (h : s.At [] 0 stack ks a) (hle : s.indent ≤ 0)
    (hu : s.unrollTo (-1) = u) (hkeys : u.keys = s.keys) (n : Nat) :
    (run (n + 1) s).1 = u.tokens := by
  have hline : s.closeLine = s := if_pos (by simp [h.col])
  have hcol : s.unrollTo s.col = s := unrollTo_eq s s.col (.inr (by rw [h.col]; exact hle))
  rw [run]
  simp only
  rw [(h.waits nofun).toNextToken, settle_eq s h.skips, hcol, h.rest]
  simp only
  rw [hline, hu, dropKey_eq u (hkeys ▸ h.keys)]
  rfl

/-- At the end of a text the tokens are those met so far, and the end of the outermost block. -/
theorem At.finish (h : s.At [] 0 [-1] ks a) (n : Nat) :
    (run (n + 1) s).1.toList.map Token.kind = ks := by
  have hindent := (List.cons.inj h.stack).1
  rw [h.run_end (by omega) (unrollTo_eq s (-1) (.inr (by omega))) rfl n, h.kinds]

theorem At.finish_closed (h : s.At [] 0 [0, -1] ks a) (n : Nat) :
    (run (n + 1) s).1.toList.map Token.kind = ks ++ [Kind.blockEnd] := by
  obtain ⟨hindent, hindents⟩ := List.cons.inj h.stack
  have hclosed : s.unrollTo (-1) = s.closed (-1) [] := by
    rw [unrollTo_closed s (-1) (-1) [] h.flow hindents (by omega)]
    exact unrollTo_eq _ _ (.inr (Int.le_refl _))
  rw [h.run_end (by omega) hclosed rfl n]
  simp [closed, Scan.push, h.kinds]

end

end FormatFuzz.Yaml.Token.Scan
