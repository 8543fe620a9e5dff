import FormatFuzz.Proofs.Expr.Acceptance
import Mathlib

/-!
# Texts and their expressions

A text denotes a tree when its tokens derive the tree from the grammar. The parser returns exactly
that tree, the grammar gives no token list two, and a text that denotes none is reported with a
position that lies in it.
-/

set_option autoImplicit false

namespace FormatFuzz.Expr

def Settles {ε α : Type} (stop : Nat) (P : α → Prop) : Except (Nat × ε) α → Prop
  | .ok a => P a
  | .error (p, _) => p ≤ stop

theorem ofTokens_settles (stop : Nat) (ts : List Token) (hts : Confined stop ts) :
    Settles stop (Derives .conditional (ts.map Token.lexeme)) (ofTokens stop ts) := by
  have hs := reader_sound stop (32 * (ts.length + 1)) .conditional ts hts
  simp only [Reader.run] at hs
  unfold ofTokens
  split
  next e hr =>
    rw [hr] at hs
    exact hs
  next x hr =>
    rw [hr] at hs
    obtain ⟨used, hu, hd⟩ := hs
    rw [List.append_nil] at hu
    rw [hu]
    exact hd
  next x t rest hr =>
    rw [hr] at hs
    obtain ⟨used, hu, _⟩ := hs
    exact hts t (by simp [hu])

theorem ofTokens_derives (stop : Nat) (ts : List Token) (x : Expr)
    (h : Derives .conditional (ts.map Token.lexeme) x) : ofTokens stop ts = .ok x := by
  have ha := derives_accepted stop .conditional _ x h ts rfl [] (closed_nil 1)
  rw [List.append_nil] at ha
  have hr := ha (32 * (ts.length + 1)) (by simp only [Phrase.reader, Reader.height]; omega)
  simp only [Phrase.reader, Reader.run] at hr
  rw [ofTokens, hr]

theorem derives_unique (ls : List Lexeme) (x y : Expr) (hx : Derives .conditional ls x)
    (hy : Derives .conditional ls y) : x = y := by
  let ts : List Token := ls.map fun l => ⟨l, 0, 0⟩
  have hts : ts.map Token.lexeme = ls := by
    rw [List.map_map]
    exact List.map_id ls
  have ox := ofTokens_derives 0 ts x (by rwa [hts])
  have oy := ofTokens_derives 0 ts y (by rwa [hts])
  exact Except.ok.inj (ox.symm.trans oy)

theorem scanFrom_settles (bs : List UInt8) (pos skip : Nat) :
    Settles (pos + bs.length) (Confined (pos + bs.length)) (Token.scanFrom pos skip bs) := by
  induction bs generalizing pos skip with
  | nil =>
    rw [Token.scanFrom]
    exact fun t ht => absurd ht List.not_mem_nil
  | cons b bs ih =>
    have hl : pos + (b :: bs).length = pos + 1 + bs.length := by
      rw [List.length_cons]
      omega
    rw [hl]
    cases skip with
    | succ skip => exact ih (pos + 1) skip
    | zero =>
      rw [Token.scanFrom]
      split
      next => exact ih (pos + 1) 0
      next =>
        have hp : pos ≤ pos + 1 + bs.length := by omega
        split
        next => exact hp
        next l n _ =>
          have hs := ih (pos + 1) (n - 1)
          cases he : Token.scanFrom (pos + 1) (n - 1) bs with
          | error e =>
            rw [he] at hs
            exact hs
          | ok ts =>
            rw [he] at hs
            intro t ht
            rcases List.mem_cons.mp ht with rfl | ht
            · exact hp
            · exact hs t ht

theorem scan_settles (bs : List UInt8) :
    Settles bs.length (Confined bs.length) (Token.scan bs) := by
  have hs := scanFrom_settles bs 0 0
  rwa [Nat.zero_add] at hs

theorem ofBytes_settles (bs : List UInt8) :
    Settles bs.length
      (fun x => ∃ ts, Token.scan bs = .ok ts ∧ Derives .conditional (ts.map Token.lexeme) x)
      (ofBytes bs) := by
  have hs := scan_settles bs
  unfold ofBytes
  split
  next p f he =>
    rw [he] at hs
    exact hs
  next ts he =>
    rw [he] at hs
    have ht := ofTokens_settles bs.length ts hs
    cases ho : ofTokens bs.length ts with
    | error e =>
      rw [ho] at ht
      exact ht
    | ok x =>
      rw [ho] at ht
      exact ⟨ts, he, ht⟩

theorem parse_ok (src : String) (x : Expr) :
    parse src = .ok x ↔
      ∃ ts, Token.scan (Text.utf8 src) = .ok ts ∧ Derives .conditional (ts.map Token.lexeme) x := by
  constructor
  · intro h
    have hs := ofBytes_settles (Text.utf8 src)
    unfold parse at h
    split at h
    next y hy =>
      obtain rfl := Except.ok.inj h
      rw [hy] at hs
      exact hs
    next => simp at h
  · rintro ⟨ts, hts, hd⟩
    rw [parse, ofBytes, hts]
    dsimp only
    rw [ofTokens_derives _ ts x hd]

theorem parse_error (src : String) (m : Malformed) (h : parse src = .error m) :
    m.source = src ∧ m.pos ≤ (Text.utf8 src).length := by
  have hs := ofBytes_settles (Text.utf8 src)
  unfold parse at h
  split at h
  next => simp at h
  next p f he =>
    obtain rfl := Except.error.inj h
    rw [he] at hs
    exact ⟨rfl, hs⟩

/-- The parser accepts exactly its grammar, the grammar is unambiguous, and every other text is
answered with what is wrong in it and where. -/
theorem parse_grammar :
    (∀ (src : String) (x : Expr), parse src = .ok x ↔
      ∃ ts, Token.scan (Text.utf8 src) = .ok ts ∧
        Derives .conditional (ts.map Token.lexeme) x) ∧
    (∀ (ls : List Lexeme) (x y : Expr),
      Derives .conditional ls x → Derives .conditional ls y → x = y) ∧
    ∀ src : String, (¬ ∃ x, parse src = .ok x) →
      ∃ m : Malformed, parse src = .error m ∧ m.source = src ∧
        m.pos ≤ (Text.utf8 src).length := by
  refine ⟨parse_ok, derives_unique, ?_⟩
  intro src h
  cases he : parse src with
  | ok x => exact absurd ⟨x, he⟩ h
  | error m => exact ⟨m, rfl, parse_error src m he⟩

theorem parse_grammar_sum :
    ∃ ts, Token.scan (Text.utf8 "a.b[0] + -2 * c::d") = .ok ts ∧
      Derives .conditional (ts.map Token.lexeme)
        (.binary .add (.index (.attr (.name "a") "b") (.int 0))
          (.binary .mul (.int (-2)) (.member ["c"] "d"))) :=
  (parse_grammar.1 _ _).mp (by cbv)

end FormatFuzz.Expr
