import FormatFuzz.Proofs.Keyed
import FormatFuzz.Proofs.Schema.Records
import Mathlib.Data.Finset.Card

/-!
# Mappings with free keys

However often keys are set, a mapping lists each key once, at the place where it was set first, with
the value it was set to last. A mapping that is read sets its entries one after the other; one that
is written and read again is the same, where its values are and the texts of keys are kept.
-/

set_option autoImplicit false

namespace FormatFuzz

open Yaml (Node)

namespace Keyed

variable {α : Type}

def LastOf (pairs : List (String × α)) (key : String) (a : α) : Prop :=
  ∃ before after, pairs = before ++ (key, a) :: after ∧ key ∉ keys after

/-- A mapping holds what pairs say that were set one after the other: each key once, in the order in
which the keys were set first, and under it the value that was set last. Its entries are its keys,
each with what is found under it. -/
structure Records (pairs : List (String × α)) (m : Keyed α) : Prop where
  keys : FirstOccurrences (keys pairs) (keys m)
  size : m.length = (Keyed.keys pairs).toFinset.card
  found : ∀ key a, get? m key = some a ↔ LastOf pairs key a
  missing : ∀ key, get? m key = none ↔ key ∉ Keyed.keys pairs
  entries : m.map (fun e => (e.1, some e.2)) = (Keyed.keys m).map fun key => (key, get? m key)

theorem lastOf_cons (p : String × α) (pairs : List (String × α)) (key : String) (a : α) :
    LastOf (p :: pairs) key a ↔ LastOf pairs key a ∨ p = (key, a) ∧ key ∉ keys pairs := by
  constructor
  · rintro ⟨before, after, h, hkey⟩
    cases before with
    | nil =>
      obtain ⟨rfl, rfl⟩ := List.cons.inj h
      exact .inr ⟨rfl, hkey⟩
    | cons q before => exact .inl ⟨before, after, (List.cons.inj h).2, hkey⟩
  · rintro (⟨before, after, rfl, hkey⟩ | ⟨rfl, hkey⟩)
    · exact ⟨p :: before, after, rfl, hkey⟩
    · exact ⟨[], pairs, rfl, hkey⟩

theorem keys_foldl_set (pairs : List (String × α)) (m : Keyed α) :
    keys (pairs.foldl (fun m p => set m p.1 p.2) m) = distinctOnto (keys m) (keys pairs) := by
  induction pairs generalizing m with
  | nil => rfl
  | cons p pairs ih =>
    rw [List.foldl_cons, ih, keys_set]
    rfl

theorem get?_foldl_set (pairs : List (String × α)) (m : Keyed α) (key : String) (a : α) :
    get? (pairs.foldl (fun m p => set m p.1 p.2) m) key = some a ↔
      LastOf pairs key a ∨ key ∉ keys pairs ∧ get? m key = some a := by
  induction pairs generalizing m with
  | nil => simp [LastOf, keys]
  | cons p pairs ih =>
    obtain ⟨k, v⟩ := p
    rw [List.foldl_cons, ih, get?_set, lastOf_cons, or_assoc]
    refine or_congr_right ?_
    by_cases hk : key = k
    · subst hk
      simp [keys, and_comm]
    · have hk' : ¬ k = key := fun h => hk h.symm
      simp [keys, hk, hk']

theorem keys_ofPairs (pairs : List (String × α)) : keys (ofPairs pairs) = distinct (keys pairs) :=
  keys_foldl_set pairs []

theorem map_get? (m : Keyed α) (hn : (keys m).Nodup) :
    m.map (fun e => (e.1, some e.2)) = (keys m).map fun key => (key, get? m key) := by
  rw [keys, List.map_map]
  refine List.map_congr_left fun e he => ?_
  rw [Function.comp_apply, get?_of_mem m e.1 e.2 hn he]

theorem records_ofPairs (pairs : List (String × α)) : Records pairs (ofPairs pairs) where
  keys := keys_ofPairs pairs ▸ firstOccurrences_distinct (keys pairs)
  size := by
    have hset : (keys pairs).toFinset = (keys (ofPairs pairs)).toFinset := by
      ext key
      rw [List.mem_toFinset, List.mem_toFinset, keys_ofPairs, mem_distinct]
    rw [hset, List.toFinset_card_of_nodup (nodup_ofPairs pairs), keys, List.length_map]
  found key a := by
    rw [ofPairs, get?_foldl_set]
    simp [get?]
  missing key := by
    rw [← Option.not_isSome_iff_eq_none, get?_isSome, keys_ofPairs, mem_distinct]
  entries := map_get? _ (nodup_ofPairs pairs)

theorem ofPairs_self (m : Keyed α) (hn : (keys m).Nodup) : ofPairs m = m := by
  have h := foldl_set id m [] hn fun _ _ => List.not_mem_nil
  simpa [ofPairs] using h

/-- Going through a mapping takes `see` from one state to another: it sees the entries in their
order, each once, and none after the one it stops at. -/
inductive Visits {β : Type} (see : β → String → Option α → β × Bool) : Keyed α → β → β → Prop
  | done (b : β) : Visits see [] b b
  | stop {b b' : β} {e : String × α} {rest : Keyed α} :
      see b e.1 (some e.2) = (b', false) → Visits see (e :: rest) b b'
  | more {b b' c : β} {e : String × α} {rest : Keyed α} :
      see b e.1 (some e.2) = (b', true) → Visits see rest b' c → Visits see (e :: rest) b c

structure Ledger (α : Type) where
  keys : List String
  values : String → Option α

namespace Ledger

def empty : Ledger α := ⟨[], fun _ => none⟩

/-- Adds a key that has no value yet to the list, and sets its value. -/
def set (l : Ledger α) (key : String) (v : α) : Ledger α where
  keys := if (l.values key).isSome then l.keys else l.keys ++ [key]
  values := Function.update l.values key (some v)

def ofPairs (pairs : List (String × α)) : Ledger α :=
  pairs.foldl (fun l p => l.set p.1 p.2) empty

/-- Shows keys in their order to `see`, each with its value, until it wants no more. -/
def visitKeys {β : Type} (l : Ledger α) (see : β → String → Option α → β × Bool) :
    List String → β → β
  | [], b => b
  | key :: rest, b =>
    match see b key (l.values key) with
    | (b, true) => visitKeys l see rest b
    | (b, false) => b

def visit {β : Type} (l : Ledger α) (see : β → String → Option α → β × Bool) (b : β) : β :=
  l.visitKeys see l.keys b

/-- The list and the table are those of a mapping. -/
structure Shows (l : Ledger α) (m : Keyed α) : Prop where
  keys : l.keys = Keyed.keys m
  values : ∀ key, l.values key = get? m key

theorem Shows.set {l : Ledger α} {m : Keyed α} (h : Shows l m) (key : String) (v : α) :
    Shows (l.set key v) (Keyed.set m key v) where
  keys := by
    have hmem : (l.values key).isSome ↔ key ∈ Keyed.keys m := by
      rw [h.values, get?_isSome]
    rw [keys_set, ← h.keys]
    simp only [Ledger.set, hmem, h.keys]
  values other := by
    rw [get?_set, ← h.values]
    exact Function.update_apply l.values key (some v) other

theorem shows_ofPairs (pairs : List (String × α)) :
    Shows (ofPairs pairs) (Keyed.ofPairs pairs) := by
  have run : ∀ (l : Ledger α) (m : Keyed α), Shows l m →
      Shows (pairs.foldl (fun l p => l.set p.1 p.2) l)
        (pairs.foldl (fun m p => Keyed.set m p.1 p.2) m) := by
    induction pairs with
    | nil => exact fun _ _ h => h
    | cons p pairs ih => exact fun l m h => ih _ _ (h.set p.1 p.2)
  exact run empty [] ⟨rfl, fun _ => rfl⟩

theorem Shows.visits {β : Type} {l : Ledger α} {m : Keyed α} (h : Shows l m)
    (hn : (Keyed.keys m).Nodup) (see : β → String → Option α → β × Bool) (b : β) :
    Visits see m b (l.visit see b) := by
  have run : ∀ rest : Keyed α, (∀ e ∈ rest, l.values e.1 = some e.2) →
      ∀ b, Visits see rest b (l.visitKeys see (Keyed.keys rest) b) := by
    intro rest
    induction rest with
    | nil => exact fun _ b => .done b
    | cons e rest ih =>
      intro hrest b
      obtain ⟨he, hrest⟩ := List.forall_mem_cons.mp hrest
      change Visits see (e :: rest) b
        (match see b e.1 (l.values e.1) with
          | (b, true) => l.visitKeys see (Keyed.keys rest) b
          | (b, false) => b)
      rw [he]
      split
      next hsee => exact .more hsee (ih hrest _)
      next hsee => exact .stop hsee
  rw [visit, h.keys]
  refine run m (fun e he => ?_) b
  rw [h.values, get?_of_mem m e.1 e.2 hn he]

end Ledger

def setAnew (f : α → α) (m : Keyed α) (key : String) : Keyed α :=
  match get? m key with
  | some a => set m key (f a)
  | none => m

/-- Goes through the keys of a mapping and sets each anew, by what is found under it then. -/
def setEach (f : α → α) (m : Keyed α) : Keyed α :=
  (keys m).foldl (setAnew f) m

theorem get?_behind (done : Keyed α) (key : String) (a : α) (rest : Keyed α)
    (h : key ∉ keys done) : get? (done ++ (key, a) :: rest) key = some a := by
  have hnone : done.find? (fun e => e.1 == key) = none := by
    rw [List.find?_eq_none]
    intro e he heq
    exact h (List.mem_map.mpr ⟨e, he, beq_iff_eq.mp heq⟩)
  simp [get?, List.find?_append, hnone]

theorem set_behind (done : Keyed α) (key : String) (a b : α) (rest : Keyed α)
    (h : key ∉ keys done) : set (done ++ (key, a) :: rest) key b = done ++ (key, b) :: rest := by
  induction done with
  | nil => simp [set]
  | cons e done ih =>
    obtain ⟨hne, hd⟩ : key ≠ e.1 ∧ key ∉ keys done := by simpa [keys] using h
    rw [List.cons_append, set, if_neg hne.symm, ih hd, List.cons_append]

theorem setEach_eq (f : α → α) (m : Keyed α) (hn : (keys m).Nodup) :
    setEach f m = m.map fun e => (e.1, f e.2) := by
  -- The entries gone through are replaced already, and those to come are as they were.
  have run : ∀ rest done : Keyed α, (keys (done ++ rest)).Nodup →
      (keys rest).foldl (setAnew f) (done ++ rest) = done ++ rest.map fun e => (e.1, f e.2) := by
    intro rest
    induction rest with
    | nil => exact fun _ _ => rfl
    | cons e rest ih =>
      intro done hn
      have hkey : e.1 ∉ keys done := by
        rw [keys, List.map_append, List.map_cons] at hn
        exact fun hmem => (List.nodup_append.mp hn).2.2 e.1 hmem e.1 (by simp) rfl
      have hstep : setAnew f (done ++ e :: rest) e.1 = done ++ [(e.1, f e.2)] ++ rest := by
        rw [setAnew, get?_behind done e.1 e.2 rest hkey]
        simpa using set_behind done e.1 e.2 (f e.2) rest hkey
      have hsame : keys (done ++ [(e.1, f e.2)] ++ rest) = keys (done ++ e :: rest) := by
        simp [keys]
      change (keys rest).foldl (setAnew f) (setAnew f (done ++ e :: rest) e.1) = _
      rw [hstep, ih _ (hsame ▸ hn)]
      simp
  exact run m [] hn

end Keyed

namespace Decode

variable {α : Type} (one : Node → Decoder α)

/-- The key of an entry has a text, and its value is read on its own. -/
def ReadsPair (e : Node × Node) (p : String × α) : Prop :=
  p.1 = e.1.text ∧ alone (one e.2) = .ok p.2

def setEntry (m : Keyed α) (e : Node × Node) : Decoder (Keyed α) :=
  match alone (one e.2) with
  | .ok v => pure (Keyed.set m e.1.text v)
  | .error err => fail (.inKey e.1.text err)

theorem keyed_map (l : Nat) (es : List (Node × Node)) :
    keyed one (.map l es) = es.foldlM (setEntry one) [] := rfl

theorem setEntries_iff (es : List (Node × Node)) (acc m : Keyed α) (b b' : Bool) :
    (es.foldlM (setEntry one) acc).run b = .ok (m, b') ↔ b' = b ∧
      ∃ pairs, List.Forall₂ (ReadsPair one) es pairs ∧
        m = pairs.foldl (fun m p => Keyed.set m p.1 p.2) acc := by
  induction es generalizing acc with
  | nil =>
    constructor
    · intro h
      cases (h : Except.ok (acc, b) = Except.ok (m, b'))
      exact ⟨rfl, [], .nil, rfl⟩
    · rintro ⟨rfl, _, ⟨⟩, rfl⟩
      rfl
  | cons e es ih =>
    rw [List.foldlM_cons, StateT.run_bind]
    cases h : alone (one e.2) with
    | error err =>
      have hrun : (setEntry one acc e).run b = .error (.inKey e.1.text err) := by
        rw [setEntry, h]
        rfl
      rw [hrun]
      constructor
      · rintro ⟨⟩
      · rintro ⟨-, _, hpairs, -⟩
        cases hpairs with
        | cons hp _ =>
          rw [ReadsPair, h] at hp
          cases hp.2
    | ok v =>
      have hrun : (setEntry one acc e).run b = .ok (Keyed.set acc e.1.text v, b) := by
        rw [setEntry, h]
        rfl
      rw [hrun]
      refine (ih (Keyed.set acc e.1.text v)).trans (and_congr_right fun _ => ?_)
      constructor
      · rintro ⟨pairs, hpairs, hm⟩
        exact ⟨(e.1.text, v) :: pairs, .cons ⟨rfl, h⟩ hpairs, hm⟩
      · rintro ⟨_, hpairs, hm⟩
        cases hpairs with
        | @cons _ p _ pairs hp hpairs =>
          obtain ⟨k, w⟩ := p
          obtain ⟨rfl, hw⟩ : k = e.1.text ∧ alone (one e.2) = .ok w := hp
          obtain rfl : v = w := Except.ok.inj (h.symm.trans hw)
          exact ⟨pairs, hpairs, hm⟩

theorem keyed_iff (l : Nat) (es : List (Node × Node)) (m : Keyed α) (b b' : Bool) :
    (keyed one (.map l es)).run b = .ok (m, b') ↔ b' = b ∧
      ∃ pairs, List.Forall₂ (ReadsPair one) es pairs ∧ m = Keyed.ofPairs pairs := by
  rw [keyed_map]
  exact setEntries_iff one es [] m b b'

theorem keyed_self (l : Nat) (es : List (Node × Node)) (m : Keyed α) (hn : (Keyed.keys m).Nodup)
    (h : List.Forall₂ (ReadsPair one) es m) : keyed one (.map l es) = pure m := by
  funext b
  exact (keyed_iff one l es m b b).mpr ⟨rfl, m, h, (Keyed.ofPairs_self m hn).symm⟩

end Decode

/-- The text of a mapping is read as a mapping whose keys have the same texts, and whose values are
those that the texts of its values are read as. -/
def Yaml.Node.KeepsKeys (n : Node) : Prop :=
  ∃ l es l' fs, n = .map l es ∧ n.copy = .ok (.map l' fs) ∧
    List.Forall₂ (fun e f => f.1.text = e.1.text ∧ e.2.copy = .ok f.2) es fs

theorem Yaml.Node.keepsKeys_of_steady (l : Nat) (es : List (Node × Node))
    (h : (Node.map l es).isSteady = true) : (Node.map l es).KeepsKeys := by
  have hvalues : ∀ es : List (Node × Node), Node.haveSmooth es = true →
      ∀ e ∈ es, e.2.isSmooth = true := by
    intro es
    induction es with
    | nil => simp
    | cons e es ih =>
      intro h
      rw [Node.haveSmooth, Bool.and_eq_true, Bool.and_eq_true] at h
      exact List.forall_mem_cons.mpr ⟨h.1.2, ih h.2⟩
  have hcopy : (Node.map l es).copy = .ok (.map l es) := if_pos h
  refine ⟨l, es, l, es, rfl, hcopy, List.forall₂_same.mpr fun e he => ⟨rfl, if_pos ?_⟩⟩
  simp only [Node.isSteady, Node.isSmooth, Node.depth, Bool.and_eq_true, decide_eq_true_eq] at h ⊢
  obtain ⟨⟨-, hsmooth⟩, hlimit⟩ := h
  exact ⟨hvalues es hsmooth e he, (Node.depth_le_of_mem es e he).2.trans
    (Nat.le_of_succ_le (of_decide_eq_true hlimit))⟩

namespace Encode

variable {α : Type} (write : α → Written Node) (one : Node → Decoder α)

def mapping (m : Keyed α) : Written Node := do
  keyedNode (← m.mapM fun e => do return (e.1, ← write e.2))

/-- A value comes back from the copy of what is written for it, and from the copy of that. -/
def RoundTrips (a : α) : Prop :=
  ∃ n c d, write a = .ok n ∧ n.copy = .ok c ∧ c.copy = .ok d ∧
    Decode.alone (one c) = .ok a ∧ Decode.alone (one d) = .ok a

/-- An entry is written for a pair: its key has the text of the key, and its value and the copy of
its value are read as the value. -/
def WritesPair (e : Node × Node) (p : String × α) : Prop :=
  p.1 = e.1.text ∧ Decode.alone (one e.2) = .ok p.2 ∧
    ∃ d, e.2.copy = .ok d ∧ Decode.alone (one d) = .ok p.2

theorem mapping_written (m : Keyed α) (h : ∀ e ∈ m, RoundTrips write one e.2) :
    ∃ es, mapping write m = .ok (.map 0 es) ∧ List.Forall₂ (WritesPair one) es m := by
  suffices hs : ∃ (ns : Keyed Node) (es : List (Node × Node)),
      (m.mapM fun e => do return (e.1, ← write e.2)) = .ok ns ∧
      (ns.mapM fun e => do return (plain e.1, ← e.2.copy) : Written _) = .ok es ∧
      List.Forall₂ (WritesPair one) es m by
    obtain ⟨ns, es, hns, hes, hm⟩ := hs
    refine ⟨es, ?_, hm⟩
    rw [mapping, hns, ok_bind, keyedNode, hes]
    rfl
  induction m with
  | nil => exact ⟨[], [], rfl, rfl, .nil⟩
  | cons e m ih =>
    obtain ⟨ns, es, hns, hes, hm⟩ := ih fun x hx => h x (List.mem_cons_of_mem e hx)
    obtain ⟨n, c, d, hn, hc, hd, hone, htwo⟩ := h e (by simp)
    refine ⟨(e.1, n) :: ns, (plain e.1, c) :: es, ?_, ?_, .cons ⟨rfl, hone, d, hd, htwo⟩ hm⟩
    · rw [List.mapM_cons, hn, hns]
      rfl
    · rw [List.mapM_cons, hc, hes]
      rfl

theorem keyed_mapping (m : Keyed α) (hn : (Keyed.keys m).Nodup)
    (h : ∀ e ∈ m, RoundTrips write one e.2) : ∃ n, mapping write m = .ok n ∧
      Decode.keyed one n = pure m ∧
      (n.KeepsKeys → ∃ c, n.copy = .ok c ∧ Decode.keyed one c = pure m) := by
  obtain ⟨es, hes, hm⟩ := mapping_written write one m h
  refine ⟨_, hes, Decode.keyed_self one 0 es m hn (hm.imp fun _ _ hp => ⟨hp.1, hp.2.1⟩), ?_⟩
  rintro ⟨_, _, l, fs, ⟨⟩, hcopy, hkeys⟩
  refine ⟨_, hcopy, Decode.keyed_self one l fs m hn ?_⟩
  refine forall₂_comp ?_ hkeys.flip hm
  rintro f e p ⟨htext, hcopied⟩ ⟨hkey, -, d, hd, hone⟩
  obtain rfl : f.2 = d := Except.ok.inj (hcopied.symm.trans hd)
  exact ⟨hkey.trans htext.symm, hone⟩

end Encode

namespace Keyed

variable {α : Type}

/-- Mappings with free keys hold what was set: however often keys are set, however often they are
repeated in a mapping that is read, and again after a mapping was written and read. -/
theorem mappings_record (one : Node → Decoder α) (write : α → Encode.Written Node) :
    (∀ pairs : List (String × α), Records pairs (ofPairs pairs) ∧
      (Ledger.ofPairs pairs).Shows (ofPairs pairs) ∧
      (∀ {β : Type} (see : β → String → Option α → β × Bool) (b : β),
        Visits see (ofPairs pairs) b ((Ledger.ofPairs pairs).visit see b)) ∧
      ∀ f, setEach f (ofPairs pairs) = (ofPairs pairs).map fun e => (e.1, f e.2)) ∧
    (∀ l es m b b', (Decode.keyed one (.map l es)).run b = .ok (m, b') ↔ b' = b ∧
      ∃ pairs, List.Forall₂ (Decode.ReadsPair one) es pairs ∧ m = ofPairs pairs) ∧
    ∀ pairs : List (String × α), (∀ e ∈ ofPairs pairs, Encode.RoundTrips write one e.2) →
      ∃ n, Encode.mapping write (ofPairs pairs) = .ok n ∧
        Decode.keyed one n = pure (ofPairs pairs) ∧
        (n.KeepsKeys → ∃ c, n.copy = .ok c ∧ Decode.keyed one c = pure (ofPairs pairs)) := by
  refine ⟨fun pairs => ?_, Decode.keyed_iff one, fun pairs h => ?_⟩
  · have hn := nodup_ofPairs pairs
    have hshows := Ledger.shows_ofPairs pairs
    exact ⟨records_ofPairs pairs, hshows, hshows.visits hn, fun f => setEach_eq f _ hn⟩
  · exact Encode.keyed_mapping write one _ (nodup_ofPairs pairs) h

theorem mappings_record_twice :
    ofPairs [("a", "x"), ("b", "y"), ("a", "z")] = [("a", "z"), ("b", "y")] ∧
    (∀ e ∈ ofPairs [("a", "x"), ("b", "y"), ("a", "z")],
      Encode.RoundTrips (fun s => .ok (Encode.string s)) Decode.string e.2) ∧
    ∃ n, Encode.mapping (fun s => .ok (Encode.string s)) [("a", "z"), ("b", "y")] = .ok n ∧
      n.KeepsKeys ∧
      ∃ c, n.copy = .ok c ∧ Decode.keyed Decode.string c = pure [("a", "z"), ("b", "y")] := by
  have hset : ofPairs [("a", "x"), ("b", "y"), ("a", "z")] = [("a", "z"), ("b", "y")] := by decide
  have hz : (Encode.string "z").copy = .ok (Encode.string "z") := if_pos (by decide +kernel)
  have hy : (Encode.string "y").copy = .ok (Encode.string "y") := if_pos (by decide +kernel)
  have hround : ∀ e ∈ ofPairs [("a", "x"), ("b", "y"), ("a", "z")],
      Encode.RoundTrips (fun s => .ok (Encode.string s)) Decode.string e.2 := by
    rw [hset]
    simp only [List.forall_mem_cons]
    exact ⟨⟨_, _, _, rfl, hz, hz, rfl, rfl⟩, ⟨_, _, _, rfl, hy, hy, rfl, rfl⟩, by simp⟩
  have hwritten : Encode.mapping (fun s => .ok (Encode.string s)) [("a", "z"), ("b", "y")] =
      .ok (.map 0 [(Encode.plain "a", Encode.string "z"),
        (Encode.plain "b", Encode.string "y")]) := by
    rw [Encode.mapping]
    simp only [List.mapM_cons, List.mapM_nil, Encode.keyedNode, ok_bind, pure, Except.pure, hz, hy]
  have hkeeps := Node.keepsKeys_of_steady 0
    [(Encode.plain "a", Encode.string "z"), (Encode.plain "b", Encode.string "y")]
    (by decide +kernel)
  obtain ⟨n, hn, -, hcopy⟩ :=
    (mappings_record Decode.string fun s => .ok (Encode.string s)).2.2 _ hround
  rw [hset] at hn hcopy
  obtain rfl := Except.ok.inj (hn.symm.trans hwritten)
  exact ⟨hset, hround, _, hn, hkeeps, hcopy hkeeps⟩

end Keyed

end FormatFuzz
