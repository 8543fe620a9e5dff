import FormatFuzz.Proofs.Expr.Lexing
import FormatFuzz.Proofs.Expr.Parsing

/-!
# Tokens and the bytes they span

A text that is scanned is made of the spans of its tokens, with nothing but blanks around them: no
byte is skipped, and none belongs to two tokens. `Scans` is the course of a scan that succeeds, one
rule for a blank and one for a lexeme; what tokens and texts have to do with each other is read off
it by induction. The end of a text counts as one more position, behind all tokens, and the readers of
the parser never leave the tokens in front of it.
-/

set_option autoImplicit false

namespace FormatFuzz

def Lexeme.bytes : Lexeme → List UInt8
  | .int t => t
  | .float t => t
  | .str v => v
  | .word t => t
  | .symbol s => s.bytes

namespace Token

/-- The content of a string between two quotes `q`, and what it stands for. The quote stands in no
content by itself, and a backslash is an escape between double quotes only. -/
inductive Resolves (q : UInt8) : List UInt8 → List UInt8 → Prop
  | nil : Resolves q [] []
  | byte {b : UInt8} {body v : List UInt8} (hq : b ≠ q) (he : ¬ (b = 92 ∧ q = 34))
      (h : Resolves q body v) : Resolves q (b :: body) (b :: v)
  | escape {e : UInt8} {body v : List UInt8} (hq : q = 34) (h : Resolves q body v) :
      Resolves q (92 :: e :: body) (unescape e :: v)

theorem stringBody_resolves (q : UInt8) (bs v : List UInt8) (n : Nat)
    (h : stringBody q bs = some (v, n)) :
    ∃ body tail, bs = body ++ q :: tail ∧ n = body.length + 1 ∧ Resolves q body v := by
  fun_induction stringBody q bs generalizing v n with
  | case1 => cases h
  | case2 c hc =>
    cases h
    exact ⟨[], [], by simpa using hc, rfl, .nil⟩
  | case3 => cases h
  | case4 c e rest hc =>
    cases h
    exact ⟨[], e :: rest, by simpa using hc, rfl, .nil⟩
  | case5 c e rest hc he ih =>
    obtain ⟨⟨w, m⟩, hr, hv⟩ := Option.map_eq_some_iff.mp h
    cases hv
    simp only [Bool.and_eq_true, beq_iff_eq] at he
    obtain ⟨rfl, hq⟩ := he
    obtain ⟨body, tail, rfl, rfl, hb⟩ := ih w m hr
    exact ⟨92 :: e :: body, tail, rfl, rfl, .escape hq hb⟩
  | case6 c e rest hc he ih =>
    obtain ⟨⟨w, m⟩, hr, hv⟩ := Option.map_eq_some_iff.mp h
    cases hv
    obtain ⟨body, tail, hrest, rfl, hb⟩ := ih w m hr
    refine ⟨c :: body, tail, by rw [hrest, List.cons_append], rfl, .byte ?_ ?_ hb⟩
    · simpa using hc
    · simpa using he

theorem stringBody_of_resolves (q : UInt8) (body v tail : List UInt8) (h : Resolves q body v) :
    stringBody q (body ++ q :: tail) = some (v, body.length + 1) := by
  induction h with
  | nil => cases tail <;> simp [stringBody]
  | @byte b body v hq he h ih =>
    obtain ⟨c, cs, hcs⟩ := List.exists_cons_of_ne_nil
      (show body ++ q :: tail ≠ [] by simp)
    rw [List.cons_append, hcs, stringBody, ← hcs, ih]
    simp [hq, he]
  | @escape e body v hq h ih =>
    subst hq
    simp [stringBody, ih]

/-- How the span of a lexeme reads: a string between two equal quotes, anything else as its own
text. -/
inductive Spells : Lexeme → List UInt8 → Prop
  | text {l : Lexeme} (h : ∀ v, l ≠ .str v) : Spells l l.bytes
  | quoted {q : UInt8} {body v : List UInt8} (hq : q = 34 ∨ q = 39) (h : Resolves q body v) :
      Spells (.str v) (q :: (body ++ [q]))

theorem fractionLength_le (bs : List UInt8) : fractionLength bs ≤ bs.length := by
  unfold fractionLength
  split
  next p d rest =>
    have ht := (List.takeWhile_sublist isNumberPart (l := d :: rest)).length_le
    simp only [List.length_cons] at ht ⊢
    split <;> omega
  next => omega

def isSign (b : UInt8) : Bool := b == 43 || b == 45

def isExpoMark (b : UInt8) : Bool := b == 101 || b == 69

def signLength : List UInt8 → Nat
  | c :: _ => if isSign c then 1 else 0
  | [] => 0

def expoDigits (bs : List UInt8) : Nat :=
  ((bs.drop (signLength bs)).takeWhile isDigit).length

theorem exponentLength_cons (e : UInt8) (bs : List UInt8) :
    exponentLength (e :: bs)
      = if isExpoMark e = true ∧ expoDigits bs ≠ 0 then 1 + signLength bs + expoDigits bs
        else 0 := by
  have hs : exponentLength (e :: bs)
      = if isExpoMark e then
          if ((bs.drop (signLength bs)).takeWhile isDigit).isEmpty then 0
          else 1 + signLength bs + ((bs.drop (signLength bs)).takeWhile isDigit).length
        else 0 := by
    cases bs <;> rfl
  rw [hs, expoDigits]
  cases (bs.drop (signLength bs)).takeWhile isDigit with
  | nil => simp
  | cons d ds => simp

theorem signed_digits_le (bs : List UInt8) (h : expoDigits bs ≠ 0) :
    signLength bs + expoDigits bs ≤ bs.length := by
  have ht := (List.takeWhile_sublist isDigit (l := bs.drop (signLength bs))).length_le
  rw [List.length_drop] at ht
  unfold expoDigits at h ⊢
  omega

theorem exponentLength_le (bs : List UInt8) : exponentLength bs ≤ bs.length := by
  cases bs with
  | nil => exact Nat.le_refl 0
  | cons e bs =>
    rw [exponentLength_cons, List.length_cons]
    split
    next h =>
      have := signed_digits_le bs h.2
      omega
    next => omega

theorem decimalLength_bounds (d : UInt8) (bs : List UInt8) (hd : isDigit d = true) :
    0 < (decimalLength (d :: bs)).2 ∧ (decimalLength (d :: bs)).2 ≤ (d :: bs).length := by
  have hw : 0 < ((d :: bs).takeWhile isNumberPart).length := by
    rw [List.takeWhile_cons_of_pos (by simp [isNumberPart, hd]), List.length_cons]
    omega
  have hle := (List.takeWhile_sublist isNumberPart (l := d :: bs)).length_le
  unfold decimalLength
  dsimp only
  generalize ((d :: bs).takeWhile isNumberPart).length = whole at hw hle
  have hf := fractionLength_le ((d :: bs).drop whole)
  generalize fractionLength ((d :: bs).drop whole) = fraction at hf
  have he := exponentLength_le ((d :: bs).drop (whole + fraction))
  rw [List.length_drop] at hf he
  omega

theorem numberLength_bounds (d : UInt8) (bs : List UInt8) (hd : isDigit d = true) :
    0 < (numberLength (d :: bs)).2 ∧ (numberLength (d :: bs)).2 ≤ (d :: bs).length := by
  cases bs with
  | nil => exact decimalLength_bounds d [] hd
  | cons m rest =>
    rw [numberLength]
    split
    next =>
      have ht := (List.takeWhile_sublist (fun b => isHexDigit b || b == 95) (l := rest)).length_le
      simp only [List.length_cons]
      omega
    next => exact decimalLength_bounds d (m :: rest) hd

theorem symbol_bytes_ne_nil (s : Symbol) : s.bytes ≠ [] := by
  rcases symbol_bytes s with ⟨b, h⟩ | ⟨b, c, h, -⟩ <;> simp [h]

theorem munch_spells (b : UInt8) (rest : List UInt8) (l : Lexeme) (n : Nat)
    (h : munch b rest = .ok (l, n)) :
    ∃ body tail, rest = body ++ tail ∧ n = body.length + 1 ∧ Spells l (b :: body) := by
  -- it is enough to know how long the span is, and that it spells the lexeme
  have cut (hn : 0 < n ∧ n ≤ (b :: rest).length) (hs : Spells l ((b :: rest).take n)) :
      ∃ body tail, rest = body ++ tail ∧ n = body.length + 1 ∧ Spells l (b :: body) := by
    obtain ⟨k, rfl⟩ : ∃ k, n = k + 1 := ⟨n - 1, by omega⟩
    rw [List.length_cons] at hn
    refine ⟨rest.take k, rest.drop k, (List.take_append_drop k rest).symm, ?_, hs⟩
    rw [List.length_take]
    omega
  unfold munch at h
  split at h
  next hd =>
    have hb := numberLength_bounds b rest hd
    cases hl : numberLength (b :: rest) with
    | mk float k =>
      rw [hl] at h hb
      simp only [Except.ok.injEq, Prod.mk.injEq] at h
      obtain ⟨rfl, rfl⟩ := h
      refine cut hb ?_
      cases float
      · exact Spells.text (l := .int _) nofun
      · exact Spells.text (l := .float _) nofun
  next =>
    split at h
    next =>
      obtain ⟨rfl, rfl⟩ := Prod.mk.inj (Except.ok.inj h)
      exact ⟨_, _, (List.takeWhile_append_dropWhile (p := isWordPart) (l := rest)).symm, rfl,
        Spells.text (l := .word _) nofun⟩
    next =>
      split at h
      next hq =>
        split at h
        next v k hv =>
          obtain ⟨rfl, rfl⟩ := Prod.mk.inj (Except.ok.inj h)
          obtain ⟨body, tail, rfl, rfl, hr⟩ := stringBody_resolves b rest v k hv
          exact ⟨body ++ [b], tail, by simp, by simp, .quoted (by simpa using hq) hr⟩
        next => cases h
      next =>
        split at h
        next s hs =>
          obtain ⟨rfl, rfl⟩ := Prod.mk.inj (Except.ok.inj h)
          have hp : s.bytes <+: b :: rest := List.isPrefixOf_iff_prefix.mp
            (List.find?_some (p := fun s : Symbol => s.bytes.isPrefixOf (b :: rest)) hs)
          refine cut ⟨List.length_pos_iff.mpr (symbol_bytes_ne_nil s), hp.length_le⟩ ?_
          rw [← List.prefix_iff_eq_take.mp hp]
          exact Spells.text (l := .symbol s) nofun
        next => cases h

theorem spells_of_munch (b : UInt8) (body tail : List UInt8) (l : Lexeme)
    (h : munch b (body ++ tail) = .ok (l, body.length + 1)) : Spells l (b :: body) := by
  obtain ⟨front, rest, happ, hn, hs⟩ := munch_spells b _ l _ h
  obtain ⟨rfl, -⟩ := List.append_inj happ (Nat.succ.inj hn)
  exact hs

/-- A scan that succeeds: the first byte of the text has the position `pos`. -/
inductive Scans : Nat → List UInt8 → List Token → Prop
  | nil {pos : Nat} : Scans pos [] []
  | blank {pos : Nat} {b : UInt8} {rest : List UInt8} {ts : List Token}
      (hb : isSpace b = true) (h : Scans (pos + 1) rest ts) : Scans pos (b :: rest) ts
  | token {pos : Nat} {b : UInt8} {body tail : List UInt8} {l : Lexeme} {ts : List Token}
      (hb : isSpace b = false) (hl : munch b (body ++ tail) = .ok (l, body.length + 1))
      (h : Scans (pos + (body.length + 1)) tail ts) :
      Scans pos (b :: (body ++ tail)) (⟨l, pos, pos + (body.length + 1)⟩ :: ts)

theorem scanFrom_munch (pos : Nat) (b : UInt8) (body tail : List UInt8) (l : Lexeme)
    (hb : isSpace b = false) (hl : munch b (body ++ tail) = .ok (l, body.length + 1)) :
    scanFrom pos 0 (b :: (body ++ tail))
      = (scanFrom (pos + (body.length + 1)) 0 tail).map
          (⟨l, pos, pos + (body.length + 1)⟩ :: ·) := by
  rw [scanFrom, if_neg (by simp [hb]), hl]
  dsimp only
  rw [Nat.add_sub_cancel, scanFrom_skip, Nat.add_assoc, Nat.add_comm 1]

theorem scanFrom_of_scans (pos : Nat) (bs : List UInt8) (ts : List Token) (h : Scans pos bs ts) :
    scanFrom pos 0 bs = .ok ts := by
  induction h with
  | nil => rfl
  | blank hb _ ih => rw [scanFrom, if_pos hb, ih]
  | token hb hl _ ih =>
    rw [scanFrom_munch _ _ _ _ _ hb hl, ih]
    rfl

theorem scanFrom_cases (pos : Nat) (bs : List UInt8) :
    (∃ ts, scanFrom pos 0 bs = .ok ts ∧ Scans pos bs ts) ∨
      ∃ p f, scanFrom pos 0 bs = .error (p, f) ∧ p < pos + bs.length := by
  induction hn : bs.length using Nat.strong_induction_on generalizing pos bs with
  | _ n ih =>
    subst hn
    cases bs with
    | nil => exact .inl ⟨[], rfl, .nil⟩
    | cons b rest =>
      cases hb : isSpace b with
      | true =>
        have hstep : scanFrom pos 0 (b :: rest) = scanFrom (pos + 1) 0 rest := by
          rw [scanFrom, if_pos hb]
        rw [hstep, List.length_cons]
        rcases ih rest.length (by simp) (pos + 1) rest rfl with ⟨ts, hs, h⟩ | ⟨p, f, hs, hp⟩
        · exact .inl ⟨ts, hs, .blank hb h⟩
        · exact .inr ⟨p, f, hs, by omega⟩
      | false =>
        cases hl : munch b rest with
        | error f =>
          refine .inr ⟨pos, f, ?_, by rw [List.length_cons]; omega⟩
          rw [scanFrom, if_neg (by simp [hb]), hl]
        | ok r =>
          obtain ⟨l, n⟩ := r
          obtain ⟨body, tail, rfl, rfl, -⟩ := munch_spells b rest l n hl
          have hlen : (b :: (body ++ tail)).length = body.length + 1 + tail.length := by
            rw [List.length_cons, List.length_append]
            omega
          rw [scanFrom_munch pos b body tail l hb hl, hlen]
          rcases ih tail.length (by omega) (pos + (body.length + 1)) tail rfl with
            ⟨ts, hs, h⟩ | ⟨p, f, hs, hp⟩
          · exact .inl ⟨_, by rw [hs]; rfl, .token hb hl h⟩
          · exact .inr ⟨p, f, by rw [hs]; rfl, by omega⟩

theorem scan_eq_ok (bs : List UInt8) (ts : List Token) : scan bs = .ok ts ↔ Scans 0 bs ts := by
  constructor
  · intro h
    rcases scanFrom_cases 0 bs with ⟨us, hs, hc⟩ | ⟨p, f, hs, -⟩
    · obtain rfl : us = ts := Except.ok.inj (hs.symm.trans h)
      exact hc
    · cases hs.symm.trans h
  · exact scanFrom_of_scans 0 bs ts

theorem scan_error_lt (bs : List UInt8) (p : Nat) (f : Fault) (h : scan bs = .error (p, f)) :
    p < bs.length := by
  rcases scanFrom_cases 0 bs with ⟨us, hs, -⟩ | ⟨q, g, hs, hq⟩
  · cases hs.symm.trans h
  · cases hs.symm.trans h
    omega

def slice (bs : List UInt8) (start stop : Nat) : List UInt8 := (bs.drop start).take (stop - start)

def span (bs : List UInt8) (t : Token) : List UInt8 := slice bs t.start t.stop

def Blank (bs : List UInt8) : Prop := ∀ b ∈ bs, isSpace b = true

def woven : List (List UInt8) → List (List UInt8) → List UInt8
  | g :: gs, s :: ss => g ++ (s ++ woven gs ss)
  | gs, _ => gs.flatten

/-- The tokens of a text account for every byte of it. -/
structure Lossless (bs : List UInt8) (ts : List Token) : Prop where
  /-- Tokens start one behind the other, the last of them before the end of the text. -/
  increasing : (ts.map start ++ [bs.length]).Pairwise (· < ·)
  /-- The text is the spans of the tokens between blanks. -/
  covered : ∃ gaps : List (List UInt8), gaps.length = ts.length + 1 ∧ (∀ g ∈ gaps, Blank g) ∧
    bs = woven gaps (ts.map (span bs))
  spelled : ∀ t ∈ ts, Spells t.lexeme (span bs t)

theorem start_of_scans (pos : Nat) (bs : List UInt8) (ts : List Token) (h : Scans pos bs ts) :
    (ts.map start ++ [pos + bs.length]).Pairwise (· < ·) ∧
      ∀ p ∈ ts.map start ++ [pos + bs.length], pos ≤ p := by
  induction h with
  | nil => simp
  | @blank pos b rest ts hb _ ih =>
    rw [List.length_cons, Nat.add_comm rest.length, ← Nat.add_assoc]
    exact ⟨ih.1, fun p hp => by have := ih.2 p hp; omega⟩
  | @token pos b body tail l ts hb hl _ ih =>
    have hlen : pos + (b :: (body ++ tail)).length = pos + (body.length + 1) + tail.length := by
      rw [List.length_cons, List.length_append]
      omega
    rw [hlen, List.map_cons, List.cons_append, List.pairwise_cons, List.forall_mem_cons]
    have hbehind (p : Nat) (hp : p ∈ ts.map start ++ [pos + (body.length + 1) + tail.length]) :
        pos < p := by
      have := ih.2 p hp
      omega
    exact ⟨⟨hbehind, ih.1⟩, Nat.le_refl pos, fun p hp => (hbehind p hp).le⟩

theorem slice_append (before part after : List UInt8) :
    slice (before ++ (part ++ after)) before.length (before.length + part.length) = part := by
  rw [slice, List.drop_left, Nat.add_sub_cancel_left, List.take_left]

theorem spelled_of_scans (pos : Nat) (bs : List UInt8) (ts : List Token) (h : Scans pos bs ts)
    (before : List UInt8) (hp : before.length = pos) :
    (∀ t ∈ ts, Spells t.lexeme (span (before ++ bs) t)) ∧
      ∃ gaps : List (List UInt8), gaps.length = ts.length + 1 ∧ (∀ g ∈ gaps, Blank g) ∧
        bs = woven gaps (ts.map (span (before ++ bs))) := by
  induction h generalizing before with
  | nil => exact ⟨by simp, [[]], rfl, by simp [Blank], rfl⟩
  | @blank pos b rest ts hb _ ih =>
    obtain ⟨hs, gaps, hlen, hgaps, hrest⟩ := ih (before ++ [b]) (by simp [hp])
    rw [List.append_assoc, List.singleton_append] at hs hrest
    obtain ⟨g, gs, rfl⟩ : ∃ g gs, gaps = g :: gs :=
      List.exists_cons_of_length_eq_add_one hlen
    obtain ⟨hg, hgs⟩ := List.forall_mem_cons.mp hgaps
    refine ⟨hs, (b :: g) :: gs, hlen, List.forall_mem_cons.mpr ⟨?_, hgs⟩, ?_⟩
    · exact List.forall_mem_cons.mpr ⟨hb, hg⟩
    · nth_rewrite 1 [hrest]
      cases ts <;> rfl
  | @token pos b body tail l ts hb hl _ ih =>
    subst hp
    obtain ⟨hs, gaps, hlen, hgaps, htail⟩ := ih (before ++ b :: body) (by simp)
    have hall : before ++ b :: (body ++ tail) = (before ++ b :: body) ++ tail := by simp
    have hspan : span (before ++ b :: (body ++ tail))
        ⟨l, before.length, before.length + (body.length + 1)⟩ = b :: body := by
      have := slice_append before (b :: body) tail
      simpa [span] using this
    refine ⟨List.forall_mem_cons.mpr ⟨?_, by rwa [hall]⟩, [] :: gaps, by simp [hlen],
      by simpa [Blank] using hgaps, ?_⟩
    · rw [hspan]
      exact spells_of_munch b body tail l hl
    · rw [List.map_cons, hspan, woven, List.nil_append, hall, ← htail]
      rfl

theorem lossless_of_scans (bs : List UInt8) (ts : List Token) (h : Scans 0 bs ts) :
    Lossless bs ts := by
  obtain ⟨hincreasing, -⟩ := start_of_scans 0 bs ts h
  obtain ⟨hspelled, hcovered⟩ := spelled_of_scans 0 bs ts h [] rfl
  rw [Nat.zero_add] at hincreasing
  exact ⟨hincreasing, hcovered, hspelled⟩

theorem run_suffix (bs : List UInt8) (ts : List Token) (h : scan bs = .ok ts) (rd : Expr.Reader)
    (n : Nat) (x : Expr) (rest : List Token) (hr : rd.run bs.length n ts = .ok (x, rest)) :
    rest <:+ ts := by
  have hts := Expr.scan_settles bs
  rw [h] at hts
  have hs := Expr.reader_sound bs.length n rd ts hts
  rw [hr] at hs
  obtain ⟨used, hused, -⟩ := hs
  exact ⟨used, hused.symm⟩

/-- A text is refused at one of its bytes, or its tokens account for all of it: they start one behind
the other, their spans with blanks around them are the text, and every span spells its token. No
reader leaves those tokens, and what is wrong with a text is found inside it or at its end. -/
theorem scan_lossless (bs : List UInt8) :
    ((∃ p f, scan bs = .error (p, f) ∧ p < bs.length) ∨
      ∃ ts, scan bs = .ok ts ∧ Lossless bs ts ∧
        ∀ (rd : Expr.Reader) (n : Nat) (x : Expr) (rest : List Token),
          rd.run bs.length n ts = .ok (x, rest) → rest <:+ ts) ∧
      ∀ p f, Expr.ofBytes bs = .error (p, f) → p ≤ bs.length := by
  constructor
  · cases hs : scan bs with
    | error e => exact .inl ⟨e.1, e.2, rfl, scan_error_lt bs e.1 e.2 hs⟩
    | ok ts =>
      have hscans := (scan_eq_ok bs ts).mp hs
      exact .inr ⟨ts, rfl, lossless_of_scans bs ts hscans, run_suffix bs ts hs⟩
  · intro p f h
    have hs := Expr.ofBytes_settles bs
    rw [h] at hs
    exact hs

example : (scan (Text.utf8 "a >'b'")).map (·.map fun t => (t.start, t.stop))
    = .ok [(0, 1), (2, 3), (3, 6)] := by
  decide +kernel

end Token
end FormatFuzz
