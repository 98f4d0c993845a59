import Mathlib.Logic.Function.Iterate
import Mathlib.Data.List.Nodup

/-!
# Generators, and paths along one pointer

The walkers are Python generators and iterators: a resumption function over
an explicit suspended state. `take` is what a generator yields first,
whether or not it ever stops; `Yields` is that it stops after yielding a
list; `run` is the same with a bound on resumptions. Following one pointer
member visits a `Path`, and a path that never passes its end visits no
node twice.
-/

namespace BpGdb

/-- A Python generator or iterator: resumed in a state, it raises `StopIteration` (`none`),
or yields a value and suspends in a new state. -/
structure Gen (σ α : Type) where
  next : σ → Option (α × σ)
  start : σ

namespace Gen

variable {σ τ α β : Type} (g : Gen σ α)

def takeFrom : Nat → σ → List α
  | 0, _ => []
  | k + 1, s =>
    match g.next s with
    | none => []
    | some (a, s') => a :: takeFrom k s'

def take (k : Nat) : List α := g.takeFrom k g.start

inductive YieldsFrom : σ → List α → Prop
  | stop {s} : g.next s = none → YieldsFrom s []
  | yield {s a s' l} : g.next s = some (a, s') → YieldsFrom s' l → YieldsFrom s (a :: l)

def Yields (l : List α) : Prop := g.YieldsFrom g.start l

/-- At most `fuel` resumptions: the values yielded, if it stopped. -/
def runFrom : Nat → σ → Option (List α)
  | 0, _ => none
  | k + 1, s =>
    match g.next s with
    | none => some []
    | some (a, s') => (runFrom k s').map (a :: ·)

def run (fuel : Nat) : Option (List α) := g.runFrom fuel g.start

def map (f : α → β) : Gen σ β where
  next s := (g.next s).map fun p => (f p.1, p.2)
  start := g.start

variable {g}

theorem YieldsFrom.takeFrom {s : σ} {l : List α} (h : g.YieldsFrom s l) :
    g.takeFrom (l.length + 1) s = l := by
  induction h with
  | stop h => simp [Gen.takeFrom, h]
  | yield h _ ih => simpa [Gen.takeFrom, h] using ih

theorem yieldsFrom_of_takeFrom : ∀ {l : List α} {s : σ},
    g.takeFrom (l.length + 1) s = l → g.YieldsFrom s l
  | [], s, h => by
    cases hs : g.next s with
    | none => exact .stop hs
    | some p => simp [Gen.takeFrom, hs] at h
  | a :: l, s, h => by
    cases hs : g.next s with
    | none => simp [Gen.takeFrom, hs] at h
    | some p =>
      simp only [List.length_cons, Gen.takeFrom, hs, List.cons.injEq] at h
      obtain ⟨rfl, h⟩ := h
      exact .yield hs (yieldsFrom_of_takeFrom h)

theorem YieldsFrom.unique {s : σ} {l l' : List α} (h : g.YieldsFrom s l) (h' : g.YieldsFrom s l') :
    l = l' := by
  induction h generalizing l' with
  | stop hs => cases h' <;> simp_all
  | yield hs _ ih =>
    cases h' with
    | stop hs' => simp_all
    | yield hs' hl' => rw [hs] at hs'; cases hs'; rw [ih hl']

theorem YieldsFrom.runFrom {s : σ} {l : List α} (h : g.YieldsFrom s l) :
    ∀ fuel, l.length < fuel → g.runFrom fuel s = some l := by
  induction h with
  | stop hs => intro fuel hf; obtain ⟨k, rfl⟩ : ∃ k, fuel = k + 1 := ⟨fuel - 1, by omega⟩; simp [Gen.runFrom, hs]
  | yield hs _ ih =>
    intro fuel hf
    obtain ⟨k, rfl⟩ : ∃ k, fuel = k + 1 := ⟨fuel - 1, by omega⟩
    simp [Gen.runFrom, hs, ih k (by simp at hf; omega)]

theorem yieldsFrom_of_runFrom : ∀ {fuel : Nat} {s : σ} {l : List α},
    g.runFrom fuel s = some l → g.YieldsFrom s l
  | 0, _, _, h => by simp [Gen.runFrom] at h
  | k + 1, s, l, h => by
    cases hs : g.next s with
    | none => simp only [Gen.runFrom, hs, Option.some.injEq] at h; exact h ▸ .stop hs
    | some p =>
      simp only [Gen.runFrom, hs, Option.map_eq_some'] at h
      obtain ⟨l', hl', rfl⟩ := h
      exact .yield hs (yieldsFrom_of_runFrom hl')

theorem runFrom_length : ∀ {fuel : Nat} {s : σ} {l : List α},
    g.runFrom fuel s = some l → l.length < fuel
  | 0, _, _, h => by simp [Gen.runFrom] at h
  | k + 1, s, l, h => by
    cases hs : g.next s with
    | none => simp only [Gen.runFrom, hs, Option.some.injEq] at h; subst h; simp
    | some p =>
      simp only [Gen.runFrom, hs, Option.map_eq_some'] at h
      obtain ⟨l', hl', rfl⟩ := h
      simpa using runFrom_length hl'

theorem runFrom_mono {fuel fuel' : Nat} {s : σ} {l : List α} (h : g.runFrom fuel s = some l)
    (hle : fuel ≤ fuel') : g.runFrom fuel' s = some l :=
  (yieldsFrom_of_runFrom h).runFrom fuel' (by have := runFrom_length h; omega)

theorem yields_of_take_eq {g' : Gen τ α} (h : ∀ k, g.take k = g'.take k) {l : List α}
    (hy : g'.Yields l) : g.Yields l :=
  yieldsFrom_of_takeFrom ((h _).trans hy.takeFrom)

/-! ## Mapping the yielded values -/

@[simp] theorem map_next (f : α → β) (s : σ) :
    (g.map f).next s = (g.next s).map fun p => (f p.1, p.2) := rfl

theorem takeFrom_map (f : α → β) : ∀ (k : Nat) (s : σ),
    (g.map f).takeFrom k s = (g.takeFrom k s).map f
  | 0, _ => rfl
  | k + 1, s => by
    cases hs : g.next s with
    | none => simp [Gen.takeFrom, hs]
    | some p => rcases p with ⟨a, s'⟩; simp [Gen.takeFrom, hs, takeFrom_map f k]

theorem take_map (f : α → β) (k : Nat) : (g.map f).take k = (g.take k).map f :=
  takeFrom_map f k g.start

theorem YieldsFrom.map (f : α → β) {s : σ} {l : List α} (h : g.YieldsFrom s l) :
    (g.map f).YieldsFrom s (l.map f) := by
  induction h with
  | stop hs => exact .stop (by simp [hs])
  | yield hs _ ih => exact .yield (by simp [hs]) ih

/-! ## Simulation -/

/-- Lockstep simulation: from related states both stop, or both yield, values related by
`f`, and suspend in related states. Then every prefix agrees. -/
theorem takeFrom_sim {g' : Gen τ β} (f : β → α) (R : σ → τ → Prop)
    (hstep : ∀ s t, R s t → (g.next s = none ∧ g'.next t = none) ∨
      ∃ b s' t', g.next s = some (f b, s') ∧ g'.next t = some (b, t') ∧ R s' t') :
    ∀ k s t, R s t → g.takeFrom k s = (g'.takeFrom k t).map f
  | 0, _, _, _ => rfl
  | k + 1, s, t, hst => by
    rcases hstep s t hst with ⟨h, h'⟩ | ⟨b, s', t', h, h', hr⟩
    · simp [Gen.takeFrom, h, h']
    · simp [Gen.takeFrom, h, h', takeFrom_sim f R hstep k s' t' hr]

/-! ## Running generators one after another -/

variable (gs : Nat → Gen σ α)

def seqNext : Nat → Nat → σ → Option (α × (Nat × σ))
  | 0, _, _ => none
  | k + 1, i, s =>
    match (gs i).next s with
    | some (a, s') => some (a, (i, s'))
    | none => seqNext k (i + 1) (gs (i + 1)).start

def seq (n : Nat) : Gen (Nat × σ) α where
  next p := seqNext gs (n - p.1) p.1 p.2
  start := (0, (gs 0).start)

variable {gs}

theorem seq_next_some {n i : Nat} {s s' : σ} {a : α} (hi : i < n) (h : (gs i).next s = some (a, s')) :
    (seq gs n).next (i, s) = some (a, (i, s')) := by
  obtain ⟨k, hk⟩ : ∃ k, n - i = k + 1 := ⟨n - i - 1, by omega⟩
  simp [seq, seqNext, hk, h]

theorem seq_next_none {n i : Nat} {s : σ} (hi : i < n) (h : (gs i).next s = none) :
    (seq gs n).next (i, s) = (seq gs n).next (i + 1, (gs (i + 1)).start) := by
  obtain ⟨k, hk⟩ : ∃ k, n - i = k + 1 := ⟨n - i - 1, by omega⟩
  simp [seq, seqNext, hk, h, show n - (i + 1) = k by omega]

theorem seq_next_of_le {n i : Nat} {s : σ} (hi : n ≤ i) : (seq gs n).next (i, s) = none := by
  simp [seq, seqNext, show n - i = 0 by omega]

theorem yieldsFrom_of_next_eq {s t : σ} {l : List α} (h : g.next s = g.next t)
    (hy : g.YieldsFrom t l) : g.YieldsFrom s l := by
  cases hy with
  | stop ht => exact .stop (h.trans ht)
  | yield ht hl => exact .yield (h.trans ht) hl

theorem seq_yieldsFrom {n : Nat} {ls : Nat → List α} (hls : ∀ i < n, (gs i).Yields (ls i)) :
    ∀ k i s l, n = i + 1 + k → (gs i).YieldsFrom s l →
      (seq gs n).YieldsFrom (i, s) (l ++ (List.range' (i + 1) k).flatMap ls) := by
  intro k
  induction k with
  | zero =>
    intro i s l hn hy
    induction hy with
    | stop hs => exact yieldsFrom_of_next_eq (seq_next_none (by omega) hs) (.stop (seq_next_of_le (by omega)))
    | yield hs _ ih => exact .yield (seq_next_some (by omega) hs) (by simpa using ih)
  | succ k ihk =>
    intro i s l hn hy
    induction hy with
    | stop hs =>
      refine yieldsFrom_of_next_eq (seq_next_none (by omega) hs) ?_
      simpa [List.range'_succ, Nat.add_right_comm] using ihk (i + 1) _ _ (by omega) (hls (i + 1) (by omega))
    | yield hs _ ih => exact .yield (seq_next_some (by omega) hs) (by simpa using ih)

theorem seq_yields {n : Nat} {ls : Nat → List α} (hls : ∀ i < n, (gs i).Yields (ls i)) :
    (seq gs n).Yields ((List.range n).flatMap ls) := by
  cases n with
  | zero => exact .stop (seq_next_of_le le_rfl)
  | succ k =>
    simpa [List.range_eq_range', List.range'_succ] using
      seq_yieldsFrom hls k 0 _ _ (by omega) (hls 0 (by omega))

end Gen

/-! ## Lists of optional results -/

section

variable {α β : Type}

theorem mapM_some_of {f : α → Option β} (v : α → β) :
    ∀ {l : List α}, (∀ x ∈ l, f x = some (v x)) → l.mapM f = some (l.map v)
  | [], _ => rfl
  | a :: l, h => by
    rw [List.mapM_cons, h a (List.mem_cons_self _ _),
      mapM_some_of v fun x hx => h x (List.mem_cons_of_mem _ hx)]
    rfl

theorem eq_map_of_mapM_some {f : α → Option β} (d : β) : ∀ {l : List α} {l' : List β},
    l.mapM f = some l' → (∀ x ∈ l, f x = some ((f x).getD d)) ∧ l' = l.map fun x => (f x).getD d
  | [], l', h => ⟨fun _ hx => absurd hx (List.not_mem_nil _), (Option.some.inj h).symm⟩
  | a :: l, l', h => by
    simp only [List.mapM_cons, Option.bind_eq_bind, Option.bind_eq_some, Option.pure_def,
      Option.some.injEq] at h
    obtain ⟨b, hb, bs, hbs, rfl⟩ := h
    obtain ⟨hl, rfl⟩ := eq_map_of_mapM_some d hbs
    refine ⟨fun x hx => ?_, by simp [hb]⟩
    rcases List.mem_cons.1 hx with rfl | hx
    · simp [hb]
    · exact hl x hx

end

/-! ## Paths along one pointer -/

section Path

variable {α : Type} (f : α → α)

/-- `Path f x l y`: following `f` from `x` visits `l`, then arrives at `y`. -/
inductive Path : α → List α → α → Prop
  | nil (x : α) : Path x [] x
  | cons {x : α} {l : List α} {y : α} : Path (f x) l y → Path x (x :: l) y

variable {f}

theorem Path.append {x y z : α} {l l' : List α} (h : Path f x l y) (h' : Path f y l' z) :
    Path f x (l ++ l') z := by
  induction h with
  | nil => exact h'
  | cons _ ih => exact .cons (ih h')

theorem Path.reverse (g : α → α) {x y : α} {l : List α} (h : Path f x l y)
    (hg : ∀ a ∈ l, g (f a) = a) : Path g (g y) l.reverse (g x) := by
  induction h with
  | nil x => exact .nil _
  | @cons x l y _ ih =>
    have hx : g (f x) = x := hg x (List.mem_cons_self _ _)
    have back := ih fun a ha => hg a (List.mem_cons_of_mem _ ha)
    rw [hx] at back
    simpa using back.append (.cons (.nil (g x)))

theorem Path.eq_iterate {x y : α} {l : List α} (h : Path f x l y) :
    l = (List.range l.length).map (f^[·] x) ∧ f^[l.length] x = y := by
  induction h with
  | nil x => simp
  | @cons x l y _ ih =>
    obtain ⟨hl, hy⟩ := ih
    refine ⟨?_, hy⟩
    calc x :: l = x :: (List.range l.length).map (f^[·] (f x)) := by rw [← hl]
      _ = _ := by rw [List.length_cons, List.range_succ_eq_map, List.map_cons, List.map_map]; rfl

theorem iterate_eq_of_cycle {x : α} {i j : Nat} (hij : i < j) (h : f^[i] x = f^[j] x) :
    ∀ k, ∃ k' < j, f^[k] x = f^[k'] x := by
  intro k
  induction k using Nat.strong_induction_on with
  | _ k ih =>
    by_cases hk : k < j
    · exact ⟨k, hk, rfl⟩
    obtain ⟨k', hk', e⟩ := ih (k - j + i) (by omega)
    refine ⟨k', hk', ?_⟩
    calc f^[k] x = f^[k - j] (f^[j] x) := by rw [← Function.iterate_add_apply]; congr 1; omega
      _ = f^[k - j + i] x := by rw [← h, ← Function.iterate_add_apply]
      _ = f^[k'] x := e

theorem Path.nodup {x y : α} {l : List α} (h : Path f x l y) (hy : y ∉ l) : l.Nodup := by
  obtain ⟨hl, hend⟩ := h.eq_iterate
  generalize l.length = n at hl hend
  subst hl
  have hit : ∀ {a b}, a < b → b < n → f^[a] x ≠ f^[b] x := fun hab hb e => by
    obtain ⟨k', hk', e'⟩ := iterate_eq_of_cycle hab e n
    exact hy (List.mem_map.2 ⟨k', List.mem_range.2 (by omega), e'.symm.trans hend⟩)
  refine List.Nodup.map_on (fun a ha b hb hab => ?_) (List.nodup_range n)
  simp only [List.mem_range] at ha hb
  by_contra hne
  rcases Nat.lt_or_gt_of_ne hne with hlt | hlt
  · exact hit hlt hb hab
  · exact hit hlt ha hab.symm

theorem Path.exists_suffix {x y q : α} {l : List α} (h : Path f x l y) (hq : q ∈ l) :
    ∃ l₁ l₂, l = l₁ ++ q :: l₂ ∧ Path f q (q :: l₂) y := by
  induction h with
  | nil => exact absurd hq (List.not_mem_nil _)
  | @cons x l y hp ih =>
    rcases List.mem_cons.1 hq with rfl | hq
    · exact ⟨[], l, rfl, .cons hp⟩
    · obtain ⟨l₁, l₂, rfl, h⟩ := ih hq
      exact ⟨x :: l₁, l₂, rfl, h⟩

theorem Path.mem_or_mem {x y y' : α} {l l' : List α} (h : Path f x l y) (h' : Path f x l' y')
    (hy : y ∉ l) (hy' : y' ∉ l') : y = y' ∨ y ∈ l' ∨ y' ∈ l := by
  induction h generalizing l' with
  | nil x =>
    cases h' with
    | nil => exact .inl rfl
    | cons => exact .inr (.inl (List.mem_cons_self _ _))
  | cons _ ih =>
    cases h' with
    | nil => exact .inr (.inr (List.mem_cons_self _ _))
    | cons h' =>
      rcases ih h' (fun h => hy (List.mem_cons_of_mem _ h)) (fun h => hy' (List.mem_cons_of_mem _ h))
        with e | hm | hm
      exacts [.inl e, .inr (.inl (List.mem_cons_of_mem _ hm)), .inr (.inr (List.mem_cons_of_mem _ hm))]

theorem Path.eq_of_not_mem {x y : α} {l l' : List α} (h : Path f x l y) (h' : Path f x l' y)
    (hy : y ∉ l) (hy' : y ∉ l') : l = l' := by
  induction h generalizing l' with
  | nil x =>
    cases h' with
    | nil => rfl
    | cons => exact absurd (List.mem_cons_self _ _) hy'
  | cons _ ih =>
    cases h' with
    | nil => exact absurd (List.mem_cons_self _ _) hy
    | cons h' =>
      rw [ih h' (fun h => hy (List.mem_cons_of_mem _ h)) (fun h => hy' (List.mem_cons_of_mem _ h))]

end Path

end BpGdb
