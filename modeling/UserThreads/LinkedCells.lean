import Mathlib.Data.List.Basic
import Mathlib.Data.List.Nodup
import Mathlib.Data.Option.Basic
import Mathlib.Logic.Function.Basic

/-!
Singly linked chains in a memory of cells. `Links` says which cells a chain
visits and in which order; a memory determines its chains, so a chain never
visits a cell twice. Writing elsewhere keeps a chain, and writing the last
cell extends it. `walk` reads a chain back as the list of its objects.
-/
namespace UserThreads.LinkedCells

abbrev Addr := ℕ

structure Cell (α : Type*) where
  obj : α
  next : Option Addr
deriving DecidableEq

abbrev Cells (α : Type*) := Addr → Option (Cell α)

variable {α : Type*} {cells cells' : Cells α} {h : Option Addr} {xs ys : List (Addr × α)}

/-- Following `next` from `h` visits exactly the listed cells and then ends. -/
def Links (cells : Cells α) : Option Addr → List (Addr × α) → Prop
  | h, [] => h = none
  | h, (a, x) :: rest => h = some a ∧ ∃ n, cells a = some ⟨x, n⟩ ∧ Links cells n rest

/-- The objects met on the first `n` cells of the chain. -/
def walk (cells : Cells α) : ℕ → Option Addr → List α
  | 0, _ => []
  | _ + 1, none => []
  | n + 1, some a =>
    match cells a with
    | none => []
    | some c => c.obj :: walk cells n c.next

/-- What a walk meets is reached from where it starts. -/
theorem mem_walk {S : Addr → Prop} {n : ℕ} {x : α} (hx : x ∈ walk cells n h)
    (hstart : ∀ a, h = some a → S a)
    (hstep : ∀ a c b, S a → cells a = some c → c.next = some b → S b) :
    ∃ a c, S a ∧ cells a = some c ∧ c.obj = x := by
  induction n generalizing h with
  | zero => cases hx
  | succ n ih =>
    cases h with
    | none => cases hx
    | some a =>
      rw [walk] at hx
      split at hx
      · cases hx
      · rename_i c hc
        rcases List.mem_cons.mp hx with rfl | hx
        · exact ⟨a, c, hstart a rfl, hc, rfl⟩
        · exact ih hx fun b hb => hstep a c b (hstart a rfl) hc hb

theorem Links.head (hl : Links cells h xs) : h = xs.head?.map Prod.fst := by
  cases xs with
  | nil => exact hl
  | cons p rest => exact hl.1

theorem Links.unique (hx : Links cells h xs) (hy : Links cells h ys) : xs = ys := by
  induction xs generalizing h ys with
  | nil =>
    have hnone : h = none := hx
    cases ys with
    | nil => rfl
    | cons q rest => simp [hnone, Links] at hy
  | cons p rest ih =>
    obtain ⟨a, x⟩ := p
    obtain ⟨rfl, n, hcell, hrest⟩ := hx
    cases ys with
    | nil => cases hy
    | cons q rest' =>
      obtain ⟨b, y⟩ := q
      obtain ⟨hab, n', hcell', hrest'⟩ := hy
      cases hab
      rw [hcell] at hcell'
      cases hcell'
      rw [ih hrest hrest']

/-- From any visited cell the chain goes on with what was listed after it. -/
theorem Links.suffix {p : Addr × α} {pre suf : List (Addr × α)}
    (hl : Links cells h (pre ++ p :: suf)) : Links cells (some p.1) (p :: suf) := by
  induction pre generalizing h with
  | nil =>
    obtain ⟨a, x⟩ := p
    exact ⟨rfl, hl.2⟩
  | cons q rest ih =>
    obtain ⟨_, n, _, hrest⟩ := hl
    exact ih hrest

theorem Links.nodup (hl : Links cells h xs) : (xs.map Prod.fst).Nodup := by
  induction xs generalizing h with
  | nil => exact List.nodup_nil
  | cons p rest ih =>
    have htail : ∃ n, Links cells n rest := ⟨_, hl.2.choose_spec.2⟩
    obtain ⟨n, hrest⟩ := htail
    refine List.nodup_cons.mpr ⟨?_, ih hrest⟩
    intro hmem
    obtain ⟨q, hq, hpq⟩ := List.mem_map.mp hmem
    obtain ⟨pre, suf, hsplit⟩ := List.append_of_mem hq
    have hfirst : Links cells (some p.1) (p :: rest) := hl.1 ▸ hl
    have hagain : Links cells (some p.1) (q :: suf) := by
      rw [hsplit] at hrest
      simpa only [hpq] using hrest.suffix
    have hlen := congrArg List.length (hfirst.unique hagain)
    rw [hsplit] at hlen
    simp only [List.length_cons, List.length_append] at hlen
    omega

theorem Links.congr (hl : Links cells h xs) (hsame : ∀ p ∈ xs, cells' p.1 = cells p.1) :
    Links cells' h xs := by
  induction xs generalizing h with
  | nil => exact hl
  | cons p rest ih =>
    obtain ⟨hh, n, hcell, hrest⟩ := hl
    exact ⟨hh, n, (hsame p (List.mem_cons_self ..)).trans hcell,
      ih hrest fun q hq => hsame q (List.mem_cons_of_mem _ hq)⟩

/-- A property of the first cell that `next` preserves holds along the chain. -/
theorem Links.closed {S : Addr → Prop} (hl : Links cells h xs) (hstart : ∀ a, h = some a → S a)
    (hnext : ∀ a c b, S a → cells a = some c → c.next = some b → S b) :
    ∀ p ∈ xs, S p.1 := by
  induction xs generalizing h with
  | nil => simp
  | cons p rest ih =>
    obtain ⟨hh, n, hcell, hrest⟩ := hl
    have hp : S p.1 := hstart _ hh
    intro q hq
    rcases List.mem_cons.mp hq with rfl | hq
    · exact hp
    · exact ih hrest (fun b hb => hnext _ _ b hp hcell hb) q hq

theorem Links.cell_of_mem (hl : Links cells h xs) {p : Addr × α} (hp : p ∈ xs) :
    ∃ n, cells p.1 = some ⟨p.2, n⟩ := by
  obtain ⟨pre, suf, rfl⟩ := List.append_of_mem hp
  obtain ⟨_, n, hcell, _⟩ := hl.suffix
  exact ⟨n, hcell⟩

/-- The next cell belongs to the chain too. -/
theorem Links.next_mem {p : Addr × α} {c : Cell α} {b : Addr} (hl : Links cells h xs)
    (hp : p ∈ xs) (hcell : cells p.1 = some c) (hnext : c.next = some b) :
    ∃ q ∈ xs, q.1 = b := by
  obtain ⟨pre, suf, rfl⟩ := List.append_of_mem hp
  obtain ⟨-, n, hcell', hrest⟩ := hl.suffix
  rw [hcell] at hcell'
  cases hcell'
  have hhead := hrest.head
  rw [show n = some b from hnext] at hhead
  cases suf with
  | nil => cases hhead
  | cons q suf => exact ⟨q, by simp, (Option.some.inj hhead).symm⟩

/-- Writing the last cell's `next` appends a new last cell. -/
theorem Links.snoc {a b : Addr} {x y : α} {pre : List (Addr × α)}
    (hl : Links cells h (pre ++ [(a, x)])) (hpre : ∀ p ∈ pre, cells' p.1 = cells p.1)
    (ha : cells' a = some ⟨x, some b⟩) (hb : cells' b = some ⟨y, none⟩) :
    Links cells' h (pre ++ [(a, x), (b, y)]) := by
  induction pre generalizing h with
  | nil => exact ⟨hl.1, some b, ha, rfl, none, hb, rfl⟩
  | cons p rest ih =>
    obtain ⟨hh, n, hcell, hrest⟩ := hl
    exact ⟨hh, n, (hpre p (List.mem_cons_self ..)).trans hcell,
      ih hrest fun q hq => hpre q (List.mem_cons_of_mem _ hq)⟩

theorem Links.walk (hl : Links cells h xs) : walk cells xs.length h = xs.map Prod.snd := by
  induction xs generalizing h with
  | nil => rfl
  | cons p rest ih =>
    obtain ⟨rfl, n, hcell, hrest⟩ := hl
    simp only [List.length_cons, LinkedCells.walk, hcell, List.map_cons, ih hrest]

end UserThreads.LinkedCells
