import FormatFuzz.Proofs.Random.Draws
import FormatFuzz.Random.Draw
import Mathlib.Data.List.FinRange
import Mathlib.Data.List.InsertIdx

/-!
# What a pool hands out

Equal items of a pool cannot be told apart, so what was handed out is accounted for by positions in
the list the pool was made from: the positions taken are distinct, and the pool holds the items at
the others in their order. Either way of taking an item keeps this account, hence so does every
sequence of them.
-/

set_option autoImplicit false

namespace FormatFuzz.Pool

variable {α σ : Type}

def untaken {n : Nat} (taken : List (Fin n)) : List (Fin n) :=
  (List.finRange n).filter fun i => !taken.contains i

/-- What was given and what is left of a list of items, by the positions taken. -/
structure Accounts (items : List α) (taken : List (Fin items.length)) (given left : List α) :
    Prop where
  distinct : taken.Nodup
  given_eq : given = taken.map items.get
  left_eq : left = (untaken taken).map items.get

section

variable {n : Nat} (taken : List (Fin n))

theorem mem_untaken (i : Fin n) : i ∈ untaken taken ↔ i ∉ taken := by
  simp [untaken]

theorem nodup_untaken : (untaken taken).Nodup :=
  (List.nodup_finRange n).filter _

theorem pairwise_untaken : (untaken taken).Pairwise (· < ·) :=
  (List.pairwise_lt_finRange n).filter _

theorem perm_untaken (h : taken.Nodup) : (taken ++ untaken taken).Perm (List.finRange n) := by
  refine (List.perm_ext_iff_of_nodup ?_ (List.nodup_finRange n)).mpr ?_
  · refine h.append (nodup_untaken taken) ?_
    intro i hi hi'
    exact (mem_untaken taken i).mp hi' hi
  · intro i
    simp [mem_untaken, Classical.em]

theorem untaken_append (i : Fin n) :
    untaken (taken ++ [i]) = (untaken taken).filter fun j => j != i := by
  rw [untaken, untaken, List.filter_filter]
  refine List.filter_congr fun j _ => ?_
  rw [List.contains_eq_mem, List.contains_eq_mem]
  by_cases hj : j = i <;> simp [hj]

theorem untaken_take (k : Nat) (hk : k < (untaken taken).length) :
    untaken (taken ++ [(untaken taken)[k]]) = (untaken taken).eraseIdx k := by
  rw [untaken_append, ← (nodup_untaken taken).erase_eq_filter, (nodup_untaken taken).erase_getElem]

theorem untaken_least (k : Fin n) (hk : k ∉ taken) (h : 0 < (untaken taken).length) :
    (untaken taken)[0] ≤ k := by
  obtain ⟨i, hi, hik⟩ := List.getElem_of_mem ((mem_untaken taken k).mpr hk)
  cases i with
  | zero => exact hik.le
  | succ i =>
    rw [← hik]
    exact (List.pairwise_iff_getElem.mp (pairwise_untaken taken) 0 (i + 1) h hi (by omega)).le

end

variable {items : List α} {taken : List (Fin items.length)} {given left : List α}

theorem accounts_start (items : List α) : Accounts items [] [] items where
  distinct := List.nodup_nil
  given_eq := rfl
  left_eq := by simp [untaken]

theorem Accounts.length_left (h : Accounts items taken given left) :
    left.length = (untaken taken).length := by
  rw [h.left_eq, List.length_map]

theorem Accounts.perm (h : Accounts items taken given left) : (given ++ left).Perm items := by
  have hp := (perm_untaken taken h.distinct).map items.get
  rw [List.map_append, ← h.given_eq, ← h.left_eq] at hp
  simpa using hp

theorem Accounts.sublist (h : Accounts items taken given left) : left.Sublist items := by
  have hs : ((untaken taken).map items.get).Sublist ((List.finRange items.length).map items.get) :=
    List.filter_sublist.map items.get
  rw [h.left_eq]
  simpa using hs

theorem Accounts.lengths (h : Accounts items taken given left) :
    given.length + left.length = items.length := by
  rw [← List.length_append, h.perm.length_eq]

theorem Accounts.take (h : Accounts items taken given left) (k : Nat) (hk : k < left.length) :
    ∃ i, i ∉ taken ∧ left[k] = items.get i ∧ (k = 0 → ∀ j, j ∉ taken → i ≤ j) ∧
      Accounts items (taken ++ [i]) (given ++ [left[k]]) (left.eraseIdx k) := by
  have hk' : k < (untaken taken).length := h.length_left ▸ hk
  have hnew : (untaken taken)[k] ∉ taken := (mem_untaken taken _).mp (List.getElem_mem hk')
  have hitem : left[k] = items.get (untaken taken)[k] := by
    simp only [h.left_eq, List.getElem_map]
  refine ⟨(untaken taken)[k], hnew, hitem, ?_, ?_, ?_, ?_⟩
  · rintro rfl j hj
    exact untaken_least taken j hj hk'
  · refine h.distinct.append (List.nodup_singleton _) ?_
    rw [List.disjoint_singleton]
    exact hnew
  · rw [List.map_append, ← h.given_eq, hitem]
    rfl
  · rw [untaken_take taken k hk', ← List.eraseIdx_map, ← h.left_eq]

variable [RandomSource σ]

/-- The two ways to take an item; a random one may try so many words. -/
inductive Removal where
  | front
  | random (tries : Nat)
  deriving DecidableEq, Repr

def Removal.draw (r : Removal) (p : Pool α) : Draw σ (α × Pool α) :=
  match r with
  | .front => ExceptT.mk (pure p.popFront)
  | .random tries => p.popRandom tries

/-- A pool in use: what it has handed out, what it holds, and the source it draws from. -/
structure Use (α σ : Type) where
  given : List α
  pool : Pool α
  source : σ

def Use.start (items : List α) (s : σ) : Use α σ :=
  ⟨[], ofList items, s⟩

/-- The outcome of one removal and the use after it. A refused one hands out nothing. -/
def Use.remove (u : Use α σ) (r : Removal) : Except Random.Error α × Use α σ :=
  match r.draw u.pool u.source with
  | (.ok (x, p), t) => (.ok x, ⟨u.given ++ [x], p, t⟩)
  | (.error e, t) => (.error e, { u with source := t })

def Use.removals (u : Use α σ) (rs : List Removal) : Use α σ :=
  rs.foldl (fun u r => (u.remove r).2) u

theorem popRandom_gives (tries : Nat) (p : Pool α) (hp : p.items ≠ []) (s t : σ) (k : Nat)
    (hk : k < p.items.length) (h : (Draw.position tries p.size).Gives s k t) :
    (p.popRandom tries).Gives s (p.items[k], ⟨p.items.eraseIdx k⟩) t := by
  obtain ⟨items⟩ := p
  cases items with
  | nil => exact absurd rfl hp
  | cons x rest =>
    have hmap := Draw.Gives.map
      (fun i => ((x :: rest).getD i x, (⟨(x :: rest).eraseIdx i⟩ : Pool α))) h
    rwa [List.getD_eq_getElem (x :: rest) x hk] at hmap

theorem popRandom_stalls (tries : Nat) (p : Pool α) (hp : p.items ≠ []) (s : σ)
    (h : ¬ Draw.Settles tries (UInt64.ofNat p.size) s) : (p.popRandom tries).Stalls s := by
  obtain ⟨items⟩ := p
  cases items with
  | nil => exact absurd rfl hp
  | cons x rest => exact ((Draw.below_stalls tries _ s h).bind _).bind _

/-- A removal hands out the item at some place and keeps the others, the front one at the first
place. It is refused for an empty pool, and a random one for want of an acceptable word. -/
theorem remove_cases (u : Use α σ) (r : Removal) :
    (∃ (k : Nat) (hk : k < u.pool.items.length) (t : σ), (r = .front → k = 0) ∧
        u.remove r = (.ok u.pool.items[k],
          ⟨u.given ++ [u.pool.items[k]], ⟨u.pool.items.eraseIdx k⟩, t⟩)) ∨
      (u.pool.items = [] ∧ u.remove r = (.error .exhausted, u)) ∨
      (u.pool.items ≠ [] ∧ (∃ tries, r = .random tries ∧
          ¬ Draw.Settles tries (UInt64.ofNat u.pool.size) u.source) ∧
        ∃ t, u.remove r = (.error .stalled, { u with source := t })) := by
  obtain ⟨given, ⟨items⟩, s⟩ := u
  cases items with
  | nil => exact .inr (.inl ⟨rfl, by cases r <;> rfl⟩)
  | cons x rest =>
    cases r with
    | front => exact .inl ⟨0, Nat.succ_pos _, s, fun _ => rfl, rfl⟩
    | random tries =>
      by_cases hs : Draw.Settles tries (UInt64.ofNat (x :: rest).length) s
      · obtain ⟨k, t, ht, hk⟩ := Draw.position_gives tries (x :: rest).length (Nat.succ_pos _) s hs
        have hpop := popRandom_gives tries (⟨x :: rest⟩ : Pool α) (by simp) s t k hk ht
        refine .inl ⟨k, hk, t, nofun, ?_⟩
        simp only [Use.remove, Removal.draw]
        rw [hpop]
      · obtain ⟨t, ht⟩ := popRandom_stalls tries (⟨x :: rest⟩ : Pool α) (by simp) s hs
        refine .inr (.inr ⟨by simp, ⟨tries, rfl, hs⟩, t, ?_⟩)
        simp only [Use.remove, Removal.draw]
        rw [ht]

theorem Accounts.remove {u : Use α σ} (h : Accounts items taken u.given u.pool.items)
    (r : Removal) :
    ∃ taken', Accounts items taken' (u.remove r).2.given (u.remove r).2.pool.items := by
  rcases remove_cases u r with ⟨k, hk, t, -, hu⟩ | ⟨-, hu⟩ | ⟨-, -, t, hu⟩
  · obtain ⟨i, -, -, -, hnext⟩ := h.take k hk
    rw [hu]
    exact ⟨_, hnext⟩
  · rw [hu]
    exact ⟨taken, h⟩
  · rw [hu]
    exact ⟨taken, h⟩

theorem Accounts.removals {u : Use α σ} (h : Accounts items taken u.given u.pool.items)
    (rs : List Removal) :
    ∃ taken', Accounts items taken' (u.removals rs).given (u.removals rs).pool.items := by
  induction rs generalizing u taken with
  | nil => exact ⟨taken, h⟩
  | cons r rs ih =>
    obtain ⟨_, hr⟩ := h.remove r
    exact ih hr

/-- A pool in use keeps its account, and what it does next follows the account. -/
structure Use.HandsOutOnce (items : List α) (taken : List (Fin items.length)) (u : Use α σ) :
    Prop where
  account : Accounts items taken u.given u.pool.items
  /-- What was handed out and what is left are the items. -/
  perm : (u.given ++ u.pool.items).Perm items
  /-- What is left is in the order of the items. -/
  order : u.pool.items.Sublist items
  size : u.pool.size = items.length - u.given.length
  /-- Only when all items were handed out is the pool exhausted. -/
  exhausted (r : Removal) :
    (u.remove r).1 = .error .exhausted ↔ u.given.length = items.length
  /-- A refused removal changes neither the pool nor what was handed out. -/
  refused (r : Removal) (e : Random.Error) (h : (u.remove r).1 = .error e) :
    (u.remove r).2.pool = u.pool ∧ (u.remove r).2.given = u.given
  /-- The front item is the earliest one not handed out. -/
  front (h : u.given.length < items.length) :
    ∃ i, i ∉ taken ∧ (∀ j, j ∉ taken → i ≤ j) ∧ (u.remove .front).1 = .ok (items.get i)
  /-- A random item is one not handed out; only an acceptable word may be missing. -/
  random (tries : Nat) (h : u.given.length < items.length) :
    (∃ i, i ∉ taken ∧ (u.remove (.random tries)).1 = .ok (items.get i)) ∨
      (¬ Draw.Settles tries (UInt64.ofNat u.pool.size) u.source ∧
        (u.remove (.random tries)).1 = .error .stalled)

theorem Accounts.handsOutOnce {u : Use α σ} (h : Accounts items taken u.given u.pool.items) :
    u.HandsOutOnce items taken where
  account := h
  perm := h.perm
  order := h.sublist
  size := by
    have hlen := h.lengths
    rw [size]
    omega
  exhausted r := by
    have hlen := h.lengths
    rcases remove_cases u r with ⟨k, hk, t, -, hu⟩ | ⟨hnil, hu⟩ | ⟨hne, -, t, hu⟩
    · rw [hu]
      exact iff_of_false nofun (by omega)
    · rw [hu]
      exact iff_of_true rfl (by simpa [hnil] using hlen)
    · have hpos := List.length_pos_of_ne_nil hne
      rw [hu]
      exact iff_of_false nofun (by omega)
  refused r e he := by
    rcases remove_cases u r with ⟨k, hk, t, -, hu⟩ | ⟨-, hu⟩ | ⟨-, -, t, hu⟩
    · rw [hu] at he
      nomatch he
    · rw [hu]
      exact ⟨rfl, rfl⟩
    · rw [hu]
      exact ⟨rfl, rfl⟩
  front hlt := by
    have hlen := h.lengths
    rcases remove_cases u .front with ⟨k, hk, t, hzero, hu⟩ | ⟨hnil, -⟩ | ⟨-, ⟨_, hr, -⟩, -⟩
    · obtain ⟨i, hi, hitem, hleast, -⟩ := h.take k hk
      exact ⟨i, hi, hleast (hzero rfl), by rw [hu, hitem]⟩
    · rw [hnil, List.length_nil] at hlen
      omega
    · nomatch hr
  random tries hlt := by
    have hlen := h.lengths
    rcases remove_cases u (.random tries) with
      ⟨k, hk, t, -, hu⟩ | ⟨hnil, -⟩ | ⟨-, ⟨_, hr, hs⟩, t, hu⟩
    · obtain ⟨i, hi, hitem, -, -⟩ := h.take k hk
      exact .inl ⟨i, hi, by rw [hu, hitem]⟩
    · rw [hnil, List.length_nil] at hlen
      omega
    · cases hr
      exact .inr ⟨hs, by rw [hu]⟩

/-- After any sequence of removals, whatever the source, every item was handed out at most once and
the others are still there in their order. -/
theorem handsOutOnce_removals (items : List α) (s : σ) (rs : List Removal) :
    ∃ taken, ((Use.start items s).removals rs).HandsOutOnce items taken := by
  obtain ⟨taken, h⟩ := Accounts.removals (u := Use.start items s) (accounts_start items) rs
  exact ⟨taken, h.handsOutOnce⟩

end FormatFuzz.Pool
