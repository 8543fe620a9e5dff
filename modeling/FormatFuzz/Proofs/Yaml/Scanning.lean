import FormatFuzz.Proofs.Fallible
import FormatFuzz.Yaml.Copy
import Mathlib.Data.List.Chain
import Mathlib.Data.List.TakeWhile

/-!
# What the scanner passes over

Blanks, line ends, plain scalars on one line and quoted scalars without escapes: where the scanner
stands behind them, and which text it has read. Which branch fetches a token is said once for each
kind of token that a copied node is written with.
-/

set_option autoImplicit false

namespace FormatFuzz.Yaml.Token.Scan

theorem isBreak_eq (c : Char) : Token.isBreak c = Yaml.isBreak c := by
  unfold Token.isBreak Yaml.isBreak
  have h (n : Nat) (d : Char) (hd : d.toNat = n) : (c.toNat == n) = (c == d) := by
    rw [Bool.eq_iff_iff, beq_iff_eq, beq_iff_eq, ← hd]
    exact ⟨fun h => Char.toNat_inj.mp h, congrArg Char.toNat⟩
  rw [h 0x85 '\u0085' rfl, h 0x2028 '\u2028' rfl, h 0x2029 '\u2029' rfl]

/-- The scanner behind characters on one line. -/
def past (s : Scan) (w rest : List Char) : Scan :=
  { s with rest := rest, index := s.index + w.length, col := s.col + w.length }

/-- The scanner with other possible keys, or where a key may or may not begin. -/
def keyed (s : Scan) (keys : List (Option KeyMark)) : Scan := { s with keys := keys }
def allowing (s : Scan) (allowed : Bool) : Scan := { s with keyAllowed := allowed }

theorem step_char (s : Scan) (c : Char) (r : List Char) (hr : s.rest = c :: r)
    (hc : Token.isBreak c = false) : s.step = s.past [c] r := by
  unfold step
  rw [hr]
  split
  · contradiction
  · rename_i h
    cases h
    exact absurd hc (by decide)
  · rename_i h
    cases h
    rw [if_neg (by simp [hc])]
    rfl

theorem step_newline (s : Scan) (r : List Char) (hr : s.rest = '\n' :: r) :
    s.step = { s with rest := r, index := s.index + 1, line := s.line + 1, col := 0 } := by
  unfold step
  rw [hr]
  rfl

@[simp] theorem past_rest (s : Scan) (w r : List Char) : (s.past w r).rest = r := rfl

theorem past_past (s : Scan) (v w x r : List Char) : (s.past v x).past w r = s.past (v ++ w) r := by
  simp [past, Nat.add_assoc]

theorem past_nil (s : Scan) (r : List Char) (h : s.rest = r) : s.past [] r = s := by
  subst h
  rfl

/-- The blanks that a text begins with, and what follows them. -/
def lead (t : List Char) : List Char := t.takeWhile (· == ' ')
def ink (t : List Char) : List Char := t.dropWhile (· == ' ')

theorem lead_append_ink (t : List Char) : lead t ++ ink t = t := List.takeWhile_append_dropWhile

theorem length_ink_le (t : List Char) : (ink t).length ≤ t.length :=
  (List.dropWhile_sublist (· == ' ')).length_le

theorem eq_of_mem_lead (t : List Char) (c : Char) (h : c ∈ lead t) : c = ' ' := by
  simpa using List.mem_takeWhile_imp h

theorem head_ink (t : List Char) (c : Char) (h : c ∈ (ink t).head?) : c ≠ ' ' := by
  have := List.head?_dropWhile_not (· == ' ') t
  rw [show (t.dropWhile (· == ' ')).head? = some c from h] at this
  simpa using this

theorem ink_append (t r : List Char) (h : ink t ≠ []) : ink (t ++ r) = ink t ++ r := by
  rw [ink, List.dropWhile_append, if_neg (by simpa [ink] using h)]
  rfl

theorem lead_append (t r : List Char) (h : ink t ≠ []) : lead (t ++ r) = lead t := by
  have := lead_append_ink (t ++ r)
  rw [ink_append t r h, ← List.append_assoc] at this
  exact List.append_cancel_right (List.append_cancel_right (this.trans
    (congrArg (· ++ r) (lead_append_ink t).symm)))

def isInk (c : Char) : Bool := !isBlank c && !Token.isBreak c

/-- Does a token begin where the blanks of a text end? A text of blanks counts. -/
def Clear (t : List Char) : Prop := ∀ c ∈ (ink t).head?, isInk c = true ∧ c ≠ '#'

theorem toNextToken_ink (s : Scan) (n : Nat) (b : Bool) (hs : s.skips = false)
    (h : ∀ c ∈ s.rest.head?, isInk c = true ∧ c ≠ '#') : toNextToken n b s = s := by
  cases n with
  | zero => rfl
  | succ n =>
    unfold toNextToken
    simp only [hs, Bool.false_and, Bool.false_eq_true, if_false]
    split
    · rfl
    · rename_i c r hr
      obtain ⟨hc, hne⟩ := h c (by rw [hr]; rfl)
      simp only [isInk, isBlank, Bool.and_eq_true, Bool.not_eq_true', Bool.or_eq_false_iff] at hc
      rw [if_neg (by simp [hc.1.1, hc.1.2]), if_neg (by simpa using hne), if_neg (by simp [hc.2])]

theorem toNextToken_blanks (s : Scan) (n : Nat) (b : Bool) (t : List Char) (hr : s.rest = t)
    (hn : t.length < n) (hs : s.skips = false) (h : Clear t) :
    toNextToken n b s = s.past (lead t) (ink t) := by
  induction t generalizing s n with
  | nil =>
    rw [toNextToken_ink s n b hs (by simp [hr])]
    exact (past_nil s [] hr).symm
  | cons c t ih =>
    by_cases hc : c = ' '
    · subst hc
      obtain ⟨n, rfl⟩ : ∃ m, n = m + 1 := ⟨n - 1, by simp at hn; omega⟩
      have hstep := step_char s ' ' t hr (by decide)
      rw [toNextToken]
      simp only [hs, Bool.false_and, Bool.false_eq_true, if_false, hr]
      rw [if_pos (by simp), hstep, ih (s.past [' '] t) n rfl (by simpa using hn) hs
        (by simpa [Clear, ink] using h), past_past]
      simp [lead, ink]
    · have hink : ink (c :: t) = c :: t := by simp [ink, hc]
      have hlead : lead (c :: t) = [] := by simp [lead, hc]
      rw [hink, hlead, past_nil s _ hr]
      exact toNextToken_ink s n b hs (by rw [hr, ← hink]; exact h)

/-- The scanner at the ink of the line that follows a line break. -/
def onLine (s : Scan) (t : List Char) : Scan :=
  { s with rest := ink t, index := s.index + 1 + (lead t).length, line := s.line + 1,
           col := (lead t).length }

theorem toNextToken_newline (s : Scan) (n : Nat) (b : Bool) (t : List Char)
    (hr : s.rest = '\n' :: t) (hn : t.length + 1 < n) (hs : s.skips = false) (hf : s.flow = 0)
    (h : Clear t) : toNextToken n b s = (s.onLine t).allowing true := by
  obtain ⟨n, rfl⟩ : ∃ m, n = m + 1 := ⟨n - 1, by omega⟩
  let s₁ : Scan := { s with rest := t, index := s.index + 1, line := s.line + 1, col := 0,
                            keyAllowed := true }
  have hnewline : toNextToken (n + 1) b s = toNextToken n b s₁ := by
    rw [toNextToken]
    simp only [hs, Bool.false_and, Bool.false_eq_true, if_false, hr]
    rw [if_neg (by simp), if_neg (by decide), if_pos (by decide), step_newline s t hr, hf]
    simp [s₁, hf]
  rw [hnewline, toNextToken_blanks s₁ n b t rfl (by omega) hs h]
  simp [past, onLine, allowing, s₁]

/-- Text read so far without line breaks, last character first, and the blanks after it. -/
def said (out white : List Char) : Folded := ⟨out, white, [], [], false⟩

/-- Where a word of a plain scalar ends: at a blank, or at a colon with a blank behind it. -/
def Stops (r : List Char) : Prop := atBlank r = true ∨ ∃ r', r = ':' :: r' ∧ atBlank r' = true

theorem atBlank_cons (c : Char) (r : List Char) : atBlank (c :: r) = !isInk c := by
  simp [atBlank, isInk]

theorem plainRun_stops (s : Scan) (n : Nat) (f : Folded) (h : Stops s.rest) :
    plainRun n s f = (s, f) := by
  cases n with
  | zero => rfl
  | succ n =>
    unfold plainRun
    split
    · rfl
    · rename_i c r hr
      rw [hr] at h
      rcases h with h | ⟨r', h, hb⟩
      · exact if_pos h
      · cases h
        rw [if_neg (by decide), if_pos (by simp [hb])]

theorem plainRun_cons (s : Scan) (n : Nat) (f : Folded) (c : Char) (r : List Char)
    (hr : s.rest = c :: r) (hf : s.flow = 0) (hc : isInk c = true)
    (hcolon : c = ':' → atBlank r = false) :
    plainRun (n + 1) s f = plainRun n (s.past [c] r) (f.join.add c) := by
  have hbreak : Token.isBreak c = false := by
    simp only [isInk, Bool.and_eq_true, Bool.not_eq_true'] at hc
    exact hc.2
  have hstop : (c == ':' && atBlank r || s.flow != 0 && isFlowEnd c) = false := by
    by_cases h : c = ':' <;> simp_all
  rw [plainRun, hr]
  simp only
  rw [if_neg (by simpa [isInk] using hc), hstop, if_neg (by decide), step_char s c r hr hbreak]

theorem atBlank_inside (c : Char) (w r : List Char) (hw : ∀ d ∈ w, isInk d = true)
    (hlast : ∀ d ∈ (c :: w).getLast?, d ≠ ':') (hc : c = ':') : atBlank (w ++ r) = false := by
  cases w with
  | nil => exact absurd hc (hlast c rfl)
  | cons d w => rw [List.cons_append, atBlank_cons, hw d (by simp), Bool.not_true]

theorem plainRun_joined (w r out : List Char) (s : Scan) (n : Nat) (hr : s.rest = w ++ r)
    (hn : w.length ≤ n) (hf : s.flow = 0) (hw : ∀ c ∈ w, isInk c = true)
    (hlast : ∀ c ∈ w.getLast?, c ≠ ':') (h : Stops r) :
    plainRun n s (said out []) = (s.past w r, said (w.reverse ++ out) []) := by
  induction w generalizing s n out with
  | nil =>
    rw [plainRun_stops s n _ (by rw [hr]; exact h)]
    exact congrArg (·, _) (past_nil s r hr).symm
  | cons c w ih =>
    obtain ⟨n, rfl⟩ : ∃ m, n = m + 1 := ⟨n - 1, by simp at hn; omega⟩
    rw [plainRun_cons s n _ c (w ++ r) hr hf (hw c (by simp))
      (atBlank_inside c w r (fun d hd => hw d (List.mem_cons_of_mem c hd)) hlast)]
    refine (ih (c :: out) (s.past [c] (w ++ r)) n rfl (by simpa using hn) hf
      (fun d hd => hw d (List.mem_cons_of_mem c hd)) ?_).trans ?_
    · intro d hd
      exact hlast d (by cases w <;> simp_all)
    · rw [past_past, List.reverse_cons, List.append_assoc]
      rfl

/-- A word is read as it stands, behind the blanks before it. -/
theorem plainRun_word (w r out white : List Char) (s : Scan) (n : Nat) (hne : w ≠ [])
    (hr : s.rest = w ++ r) (hn : w.length ≤ n) (hf : s.flow = 0) (hw : ∀ c ∈ w, isInk c = true)
    (hlast : ∀ c ∈ w.getLast?, c ≠ ':') (h : Stops r) :
    plainRun n s (said out white) = (s.past w r, said (w.reverse ++ (white ++ out)) []) := by
  rw [← plainRun_joined w r (white ++ out) s n hr hn hf hw hlast h]
  obtain ⟨c, w, rfl⟩ := List.exists_cons_of_ne_nil hne
  obtain ⟨n, rfl⟩ : ∃ m, n = m + 1 := ⟨n - 1, by simp at hn; omega⟩
  have hcolon := atBlank_inside c w r (fun d hd => hw d (List.mem_cons_of_mem c hd)) hlast
  rw [plainRun_cons s n _ c (w ++ r) hr hf (hw c (by simp)) hcolon,
    plainRun_cons s n _ c (w ++ r) hr hf (hw c (by simp)) hcolon]
  rfl

theorem blanks_ink (s : Scan) (indent : Int) (strict : Bool) (n : Nat) (f : Folded)
    (h : ∀ c ∈ s.rest.head?, isInk c = true) : blanks indent strict n s f = .ok (s, f) := by
  cases n with
  | zero => rfl
  | succ n =>
    unfold blanks
    split
    · rfl
    · rename_i c r hr
      have hc := h c (by rw [hr]; rfl)
      simp only [isInk, Bool.and_eq_true, Bool.not_eq_true'] at hc
      rw [if_neg (by simp [hc.1]), if_neg (by simp [hc.2])]

theorem blanks_lead (t : List Char) (s : Scan) (indent : Int) (strict : Bool) (n : Nat)
    (f : Folded) (hr : s.rest = t) (hn : t.length ≤ n) (h : Clear t) :
    blanks indent strict n s f = .ok (s.past (lead t) (ink t), (lead t).foldl Folded.blank f) := by
  induction t generalizing s n f with
  | nil =>
    rw [blanks_ink s indent strict n f (by simp [hr])]
    exact congrArg (fun s => Except.ok (s, f)) (past_nil s [] hr).symm
  | cons c t ih =>
    by_cases hc : c = ' '
    · subst hc
      obtain ⟨n, rfl⟩ : ∃ m, n = m + 1 := ⟨n - 1, by simp at hn; omega⟩
      rw [blanks, hr]
      simp only
      rw [if_pos (by decide), if_neg (by simp), step_char s ' ' t hr (by decide),
        ih (s.past [' '] t) n (f.blank ' ') rfl (by simpa using hn)
          (by simpa [Clear, ink] using h), past_past]
      simp [lead, ink]
    · have hink : ink (c :: t) = c :: t := by simp [ink, hc]
      have hlead : lead (c :: t) = [] := by simp [lead, hc]
      rw [hink, hlead, past_nil s _ hr]
      exact blanks_ink s indent strict n f fun d hd => (h d (by rwa [hink, ← hr])).1

theorem foldl_blank_said (cs out white : List Char) :
    cs.foldl Folded.blank (said out white) = said out (cs.reverse ++ white) := by
  induction cs generalizing white with
  | nil => rfl
  | cons c cs ih =>
    refine (ih (c :: white)).trans ?_
    rw [List.reverse_cons, List.append_assoc]
    rfl

theorem foldl_blank_broken (cs : List Char) (f : Folded) (h : f.broken = true) :
    cs.foldl Folded.blank f = f := by
  induction cs with
  | nil => rfl
  | cons c cs ih => rw [List.foldl_cons, Folded.blank, if_pos h, ih]

/-- Text read up to the end of its line. -/
def saidLine (out : List Char) : Folded := ⟨out, [], ['\n'], [], true⟩

@[simp] theorem text_said (cs : List Char) : (said cs.reverse []).text = String.ofList cs := by
  simp [said, Folded.text]

@[simp] theorem text_saidLine (cs : List Char) : (saidLine cs.reverse).text = String.ofList cs := by
  simp [saidLine, Folded.text]

@[simp] theorem broken_said (out white : List Char) : (said out white).broken = false := rfl
@[simp] theorem broken_saidLine (out : List Char) : (saidLine out).broken = true := rfl

theorem blanks_newline (t : List Char) (s : Scan) (indent : Int) (n : Nat) (out white : List Char)
    (hr : s.rest = '\n' :: t) (hn : t.length < n) (h : Clear t) :
    blanks indent true n s (said out white) = .ok (s.onLine t, saidLine out) := by
  obtain ⟨n, rfl⟩ : ∃ m, n = m + 1 := ⟨n - 1, by omega⟩
  rw [blanks, hr]
  simp only
  rw [if_neg (by decide), if_pos (by decide), step_newline s t hr]
  refine (blanks_lead t _ indent true n _ rfl (by omega) h).trans ?_
  have hbreak : s.breakText = ['\n'] := by
    rw [breakText, hr]
    rfl
  rw [hbreak, foldl_blank_broken _ _ rfl]
  simp [past, onLine, said, Folded.lineBreak, saidLine]

/-- Text on one line that no reader takes for anything but a plain scalar once one has begun. -/
structure Plain (cs : List Char) : Prop where
  chars : ∀ c ∈ cs, Token.isBreak c = false ∧ c ≠ '\t'
  colons : cs.IsChain fun a b => a = ':' → b ≠ ' '
  hashes : cs.IsChain fun a b => a = ' ' → b ≠ '#'
  ends : ∀ c ∈ cs.getLast?, c ≠ ':' ∧ c ≠ ' '

theorem Plain.isInk {cs : List Char} (h : Plain cs) (c : Char) (hc : c ∈ cs) (hs : c ≠ ' ') :
    isInk c = true := by
  obtain ⟨hb, ht⟩ := h.chars c hc
  simp [Scan.isInk, isBlank, hb, ht, hs]

theorem Plain.right {w r : List Char} (h : Plain (w ++ r)) : Plain r where
  chars c hc := h.chars c (List.mem_append_right w hc)
  colons := h.colons.right_of_append
  hashes := h.hashes.right_of_append
  ends c hc := h.ends c (by
    obtain ⟨d, r, rfl⟩ := List.exists_cons_of_ne_nil (show r ≠ [] by rintro rfl; cases hc)
    rwa [List.getLast?_append_cons])

theorem Plain.ink_ne_nil {r : List Char} (h : Plain r) (hne : r ≠ []) : ink r ≠ [] := by
  intro hink
  have hlead : lead r = r := by simpa [hink] using lead_append_ink r
  have hlast := List.getLast?_eq_some_getLast hne
  exact (h.ends _ hlast).2 (eq_of_mem_lead r _ (hlead.symm ▸ List.getLast_mem hne))

theorem Plain.ink_head {r : List Char} (h : Plain (' ' :: r)) (c : Char)
    (hc : c ∈ (ink (' ' :: r)).head?) : Scan.isInk c = true ∧ c ≠ '#' := by
  have hsplit := lead_append_ink (' ' :: r)
  have hne : lead (' ' :: r) ≠ [] := by simp [lead]
  rw [← hsplit] at h
  have hlast := List.getLast?_eq_some_getLast hne
  have hblank := eq_of_mem_lead (' ' :: r) _ (List.getLast_mem hne)
  refine ⟨h.isInk c (List.mem_append_right _ (List.mem_of_mem_head? hc)) (head_ink _ c hc), ?_⟩
  exact (List.isChain_append.mp h.hashes).2.2 _ hlast c hc hblank

theorem Plain.clear {r : List Char} (h : Plain (' ' :: r)) (t : List Char) :
    Clear (' ' :: r ++ t) := by
  have hne := h.ink_ne_nil (by simp)
  intro c hc
  rw [ink_append _ _ hne, List.head?_append_of_ne_nil _ hne] at hc
  exact h.ink_head c hc

/-- The first word of a plain text. A colon at its end would stand before a blank. -/
theorem Plain.cut {cs : List Char} (h : Plain cs) (hne : cs ≠ [])
    (hhead : ∀ c ∈ cs.head?, c ≠ ' ') :
    ∃ w r, cs = w ++ r ∧ w ≠ [] ∧ (∀ c ∈ w, Scan.isInk c = true) ∧ (∀ c ∈ w.getLast?, c ≠ ':') ∧
      ∀ c ∈ r.head?, c = ' ' := by
  have hrest : ∀ c ∈ (cs.dropWhile (· != ' ')).head?, c = ' ' := by
    intro c hc
    have hnot := List.head?_dropWhile_not (· != ' ') cs
    rw [hc] at hnot
    simpa using hnot
  have hword : ∀ c ∈ cs.takeWhile (· != ' '), c ≠ ' ' := fun c hc => by
    simpa using List.mem_takeWhile_imp hc
  obtain ⟨w, r, rfl, hw, hr⟩ : ∃ w r, cs = w ++ r ∧ (∀ c ∈ w, c ≠ ' ') ∧ ∀ c ∈ r.head?, c = ' ' :=
    ⟨_, _, List.takeWhile_append_dropWhile.symm, hword, hrest⟩
  refine ⟨w, r, rfl, ?_, fun c hc => h.isInk c (List.mem_append_left r hc) (hw c hc),
    fun c hc => ?_, hr⟩
  · rintro rfl
    obtain ⟨c, r, rfl⟩ := List.exists_cons_of_ne_nil hne
    exact hhead c rfl (hr c rfl)
  · cases r with
    | nil => exact (h.ends c (by simpa using hc)).1
    | cons d r =>
      exact fun hcolon => (List.isChain_append.mp h.colons).2.2 c hc d rfl hcolon (hr d rfl)

theorem plainScalar_run (indent : Int) (n : Nat) (s s' : Scan) (f f' : Folded)
    (hmarker : s.atMarker = false) (hhash : s.rest.head? ≠ some '#')
    (hrun : plainRun s.rest.length s f = (s', f')) :
    plainScalar indent (n + 1) s f =
      if s'.rest.isEmpty || !atBlank s'.rest then .ok (s', f')
      else blanks indent true s'.rest.length s' f' >>= fun r =>
        if r.1.flow == 0 && (r.1.col : Int) < indent then .ok r
        else plainScalar indent n r.1 r.2 := by
  rw [plainScalar, if_neg (by simp [hmarker, hhash]), hrun]

theorem plainScalar_end (s : Scan) (indent : Int) (n : Nat) (f : Folded) (h : s.rest = []) :
    plainScalar indent n s f = .ok (s, f) := by
  cases n with
  | zero => rfl
  | succ n =>
    rw [plainScalar_run indent n s s f f (by simp [atMarker, h]) (by simp [h]) (by rw [h]; rfl), h]
    rfl

theorem plainScalar_line (cs t : List Char) (n : Nat) (s : Scan) (out white : List Char)
    (indent : Int) (hne : cs ≠ []) (h : Plain cs) (hhead : ∀ c ∈ cs.head?, c ≠ ' ' ∧ c ≠ '#')
    (hmarker : s.atMarker = false) (hr : s.rest = cs ++ '\n' :: t) (hn : cs.length < n)
    (hf : s.flow = 0) (hcol : indent ≤ s.col) (ht : Clear t)
    (hnext : ink t = [] ∨ ((lead t).length : Int) < indent) :
    plainScalar indent n s (said out white) =
      .ok ((s.past cs ('\n' :: t)).onLine t, saidLine (cs.reverse ++ (white ++ out))) := by
  -- each round takes a word and the blanks behind it
  induction hlen : cs.length using Nat.strongRecOn generalizing cs n s out white with
  | _ len ih =>
  obtain ⟨n, rfl⟩ : ∃ m, n = m + 1 := ⟨n - 1, by omega⟩
  obtain ⟨w, r, rfl, hwne, hink, hlast, hrest⟩ := h.cut hne fun c hc => (hhead c hc).1
  have hrun := plainRun_word w (r ++ '\n' :: t) out white s s.rest.length hwne
    (by rw [hr, List.append_assoc]) (by simp [hr]) hf hink hlast
    (.inl (by cases r with
      | nil => rfl
      | cons d r => rw [hrest d rfl]; rfl))
  rw [plainScalar_run indent n s _ _ _ hmarker ?_ hrun]
  rotate_left
  · obtain ⟨c, w, rfl⟩ := List.exists_cons_of_ne_nil hwne
    rw [hr]
    simpa using (hhead c rfl).2
  cases r with
  | nil =>
    rw [if_neg (by simp [atBlank, isBlank, Token.isBreak])]
    rw [blanks_newline t _ indent _ _ _ (by simp) (by simp) ht, ok_bind]
    simp only [List.append_nil]
    rcases hnext with hnext | hnext
    · split
      · rfl
      · exact plainScalar_end _ indent n _ hnext
    · exact if_pos (by simpa [onLine, past, hf] using hnext)
  | cons d r =>
    obtain rfl := hrest d rfl
    have hr' : Plain (' ' :: r) := h.right
    have hne' : ink (' ' :: r) ≠ [] := hr'.ink_ne_nil (by simp)
    have hpos := List.length_pos_iff.mpr hwne
    rw [if_neg (by simp [atBlank, isBlank]),
      blanks_lead (' ' :: r ++ '\n' :: t) _ indent true _ _ rfl (by simp) (hr'.clear _), ok_bind,
      foldl_blank_said, past_past, ink_append _ _ hne', lead_append _ _ hne']
    simp only
    rw [if_neg (by simp [past]; omega)]
    have hlen' : (ink (' ' :: r)).length < len := by
      have := congrArg List.length (lead_append_ink (' ' :: r))
      simp only [List.length_append] at *
      omega
    have hpast :
        (s.past (w ++ lead (' ' :: r)) (ink (' ' :: r) ++ '\n' :: t)).atMarker = false := by
      have hcol : (s.past (w ++ lead (' ' :: r)) (ink (' ' :: r) ++ '\n' :: t)).col ≠ 0 := by
        simp only [past, List.length_append]
        omega
      simp [atMarker, hcol]
    have hplain : Plain (ink (' ' :: r)) := (lead_append_ink (' ' :: r) ▸ hr').right
    rw [ih _ hlen' (ink (' ' :: r)) n _ _ _ hne' hplain
      (fun c hc => ⟨head_ink _ c hc, (hr'.ink_head c hc).2⟩) hpast rfl (by omega) hf
      (by simp [past]; omega) rfl, past_past]
    have hsplit := lead_append_ink (' ' :: r)
    conv_rhs => rw [← hsplit]
    simp [List.append_assoc]

theorem plainScalar_word (cs r : List Char) (n : Nat) (s : Scan) (indent : Int) (hne : cs ≠ [])
    (hink : ∀ c ∈ cs, isInk c = true) (hlast : ∀ c ∈ cs.getLast?, c ≠ ':')
    (hhash : cs.head? ≠ some '#') (hmarker : s.atMarker = false) (hr : s.rest = cs ++ ':' :: r)
    (hb : atBlank r = true) (hf : s.flow = 0) :
    plainScalar indent (n + 1) s (said [] []) = .ok (s.past cs (':' :: r), said cs.reverse []) := by
  have hrun := plainRun_word cs (':' :: r) [] [] s s.rest.length hne hr (by simp [hr]) hf hink hlast
    (.inr ⟨r, rfl, hb⟩)
  rw [plainScalar_run indent n s _ _ _ hmarker ?_ hrun,
    if_pos (by simp [atBlank, isBlank, Token.isBreak])]
  · simp
  · obtain ⟨c, cs, rfl⟩ := List.exists_cons_of_ne_nil hne
    simpa [hr] using hhash

theorem quotedRun_bare (w r out : List Char) (s : Scan) (n : Nat) (hr : s.rest = w ++ '"' :: r)
    (hn : w.length < n) (hw : ∀ c ∈ w, isInk c = true ∧ c ≠ '"' ∧ c ≠ '\\') :
    quotedRun '"' n s (said out []) =
      .ok (s.past w ('"' :: r), said (w.reverse ++ out) [], true) := by
  induction w generalizing s n out with
  | nil =>
    obtain ⟨n, rfl⟩ : ∃ m, n = m + 1 := ⟨n - 1, by omega⟩
    rw [past_nil s ('"' :: r) hr, quotedRun, hr]
    rfl
  | cons c w ih =>
    obtain ⟨n, rfl⟩ : ∃ m, n = m + 1 := ⟨n - 1, by simp at hn; omega⟩
    obtain ⟨hc, hquote, hslash⟩ := hw c (by simp)
    have hbreak : Token.isBreak c = false := by
      simp only [isInk, Bool.and_eq_true, Bool.not_eq_true'] at hc
      exact hc.2
    rw [quotedRun, hr]
    simp only [List.cons_append]
    rw [if_neg (by simpa [isInk] using hc), if_neg (by simpa using hquote),
      if_neg (by simp [hslash]), step_char s c (w ++ '"' :: r) hr hbreak]
    refine (ih (c :: out) (s.past [c] (w ++ '"' :: r)) n rfl (by simpa using hn)
      fun d hd => hw d (List.mem_cons_of_mem c hd)).trans ?_
    rw [past_past, List.reverse_cons, List.append_assoc]
    rfl

theorem quotedScalar_bare (w r : List Char) (s : Scan) (n : Nat) (hr : s.rest = w ++ '"' :: r)
    (hcol : 0 < s.col) (hw : ∀ c ∈ w, isInk c = true ∧ c ≠ '"' ∧ c ≠ '\\') :
    quotedScalar '"' (n + 1) s (said [] []) = .ok (s.past (w ++ ['"']) r, said w.reverse []) := by
  have hmarker : s.atMarker = false := by simp [atMarker, Nat.ne_of_gt hcol]
  have hlen : w.length < s.rest.length + 1 := by
    simp only [hr, List.length_append]
    omega
  have hrun := quotedRun_bare w r [] s (s.rest.length + 1) hr hlen hw
  rw [quotedScalar, if_neg (by simp [hmarker, hr]), hrun, ok_bind]
  simp only [if_true, List.append_nil]
  rw [step_char _ '"' r rfl (by decide), past_past]

/-- Does a plain scalar begin with a character in front of others? -/
def Opens (c : Char) (r : List Char) : Prop :=
  isInk c = true ∧ c ∉ Yaml.indicators ∧ ((c = '?' ∨ c = ':' ∨ c = '-') → atBlank r = false)

theorem startsPlain_opens (s : Scan) (c : Char) (r : List Char) (hf : s.flow = 0)
    (hc : Opens c r) : s.startsPlain c r = true := by
  obtain ⟨hink, hind, hmark⟩ := hc
  have hindicators : ∀ d ∈ "-?:,[]\x7b\x7d#&*!|>'\"%@`".toList,
      (d = '?' ∨ d = ':' ∨ d = '-') ∨ d ∈ Yaml.indicators := by simp [Yaml.indicators]
  unfold startsPlain
  by_cases hmarked : c = '?' ∨ c = ':' ∨ c = '-'
  · have hr := hmark hmarked
    rcases hmarked with rfl | rfl | rfl
    · simp [hf, hr]
    · simp [hf, hr]
    · cases r with
      | nil => simp [atBlank] at hr
      | cons d r =>
        simp only [atBlank, Bool.or_eq_false_iff] at hr
        simp [hr.1]
  · have hno : isIndicator c = false := by
      rw [isIndicator, List.contains_eq_mem, decide_eq_false_iff_not]
      exact fun h => (hindicators c h).elim hmarked hind
    simp only [isInk, Bool.and_eq_true, Bool.not_eq_true'] at hink
    simp [hno, hink.1, hink.2]

theorem fetch_plain (s : Scan) (c : Char) (r : List Char) (hm : s.atMarker = false)
    (hf : s.flow = 0) (hc : Opens c r) :
    s.fetch c r = s.saveKey >>= fun t =>
      plainScalar (t.indent + 1) (t.rest.length + 1) (t.allowing false) (said [] []) >>= fun p =>
        .ok ((if p.2.broken then p.1.allowing true else p.1).push
          (.scalar .plain p.2.text) s.line) := by
  obtain ⟨hink, hind, hmark⟩ := hc
  have hne (d : Char) (hd : d ∈ Yaml.indicators) : (c == d) = false :=
    beq_eq_false_iff_ne.mpr (ne_of_mem_of_not_mem hd hind).symm
  have hafter (d : Char) (hd : d = '?' ∨ d = ':' ∨ d = '-') : (c == d && atBlank r) = false := by
    by_cases h : c = d
    · rw [hmark (h ▸ hd), Bool.and_false]
    · rw [beq_eq_false_iff_ne.mpr h, Bool.false_and]
  have hstart : s.startsPlain c r = true := by
    exact startsPlain_opens s c r hf ⟨hink, hind, hmark⟩
  unfold fetch
  simp (disch := decide) only [hm, hf, hstart, hne, hafter, Bool.false_eq_true, if_false, if_true,
    Bool.false_or, Bool.false_and, bne_self_eq_false]
  rfl

theorem fetch_quote (s : Scan) (r : List Char) (hm : s.atMarker = false) :
    s.fetch '"' r = s.saveKey >>= fun t =>
      quotedScalar '"' (t.rest.length + 1) (t.allowing false).step (said [] []) >>= fun p =>
        .ok (p.1.push (.scalar .double p.2.text) s.line) := by
  unfold fetch
  simp [hm]
  rfl

theorem fetch_dash (s : Scan) (r : List Char) (hm : s.atMarker = false) (hf : s.flow = 0)
    (ha : s.keyAllowed = true) (hr : atBlank r = true) :
    s.fetch '-' r = (s.roll s.col none .sequenceStart s.line).dropKey >>= fun t =>
      .ok ((t.allowing true).step.push .blockEntry s.line) := by
  unfold fetch
  simp [hm, hf, ha, hr]
  rfl

theorem fetch_colon (s : Scan) (r : List Char) (hm : s.atMarker = false) (hr : atBlank r = true) :
    s.fetch ':' r = s.valueToken := by
  unfold fetch
  simp [hm, hr]

/-- The scanner inside one more collection in flow form, and outside the innermost one. -/
def inside (s : Scan) : Scan := { s with flow := s.flow + 1, keys := none :: s.keys }
def outside (s : Scan) : Scan := { s with flow := s.flow - 1, keys := s.keys.drop 1 }

theorem fetch_open (s : Scan) (c : Char) (r : List Char) (hm : s.atMarker = false)
    (hc : c = '[' ∨ c = '\x7b') :
    s.fetch c r = s.saveKey >>= fun t => .ok ((t.inside.allowing true).step.push
      (if c == '[' then .flowSequenceStart else .flowMappingStart) s.line) := by
  unfold fetch
  rcases hc with rfl | rfl <;> simp [hm] <;> rfl

theorem fetch_close (s : Scan) (c : Char) (r : List Char) (hm : s.atMarker = false)
    (hc : c = ']' ∨ c = '\x7d') :
    s.fetch c r = s.dropKey >>= fun t =>
      .ok (((if t.flow == 0 then t else t.outside).allowing false).step.push
        (if c == ']' then .flowSequenceEnd else .flowMappingEnd) s.line) := by
  unfold fetch
  rcases hc with rfl | rfl <;> simp [hm, outside, allowing]

end FormatFuzz.Yaml.Token.Scan
