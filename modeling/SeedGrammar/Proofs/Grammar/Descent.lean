/-
# SeedGrammar.Proofs.Grammar.Descent — the blocks that a descent writes

A descent writes one block for each child, in some order of the children: the
lines of some expansions in a row, no more than the weight of the child, and maybe
none. What one expansion does is left open. It is a relation `Step` between states
with the lines written on the way, and a `view` says which site a state stands for.

* `always_descend`: if the expansions of all children follow `Step`, the descent
  follows `Blocks Step`.
* `Blocks.closed`: a relation that lets nothing be written, and lets lines be
  written one after another, holds of blocks if it holds of steps.
* `Blocks.renders`: if each step renders parts, such as items or units, blocks do.
* `Blocks.rendersAs`: if it is known which parts a step may render, then so it is for
  the block of each child.
* `Blocks.measure_le`: how much something that is measured grows at most.
-/
import SeedGrammar.Grammar.Expansion
import SeedGrammar.Proofs.Walk.Always

namespace SeedGrammar

set_option autoImplicit false

variable {σ : Type}

/-! ## Chains and blocks -/

/-- So many steps in a row. -/
inductive Chain (Step : σ → List Line → σ → Prop) : Nat → σ → List Line → σ → Prop where
  | nil {s : σ} : Chain Step 0 s [] s
  | cons {n : Nat} {s t u : σ} {first rest : List Line} (head : Step s first t)
      (tail : Chain Step n t rest u) : Chain Step (n + 1) s (first ++ rest) u

/-- For each child in turn a chain of its steps, no longer than its weight. -/
inductive Blocks (Step : Production → σ → List Line → σ → Prop) :
    List Child → σ → List Line → σ → Prop where
  | nil {s : σ} : Blocks Step [] s [] s
  | cons {child : Child} {children : List Child} {n : Nat} {s t u : σ} {first rest : List Line}
      (within : n ≤ child.weight.val) (block : Chain (Step child.production) n s first t)
      (tail : Blocks Step children t rest u) : Blocks Step (child :: children) s (first ++ rest) u

/-! ## Laws of blocks -/

theorem Chain.closed {Step Path : σ → List Line → σ → Prop} (still : ∀ s, Path s [] s)
    (onward : ∀ {s t u l l'}, Path s l t → Path t l' u → Path s (l ++ l') u)
    (step : ∀ {s l t}, Step s l t → Path s l t) {n : Nat} {s t : σ} {lines : List Line}
    (chain : Chain Step n s lines t) : Path s lines t := by
  induction chain with
  | nil => exact still _
  | cons head tail ih => exact onward (step head) ih

theorem Blocks.closed {Step : Production → σ → List Line → σ → Prop}
    (Path : σ → List Line → σ → Prop) (still : ∀ s, Path s [] s)
    (onward : ∀ {s t u l l'}, Path s l t → Path t l' u → Path s (l ++ l') u)
    {children : List Child}
    (step : ∀ child ∈ children, ∀ {s l t}, Step child.production s l t → Path s l t)
    {s t : σ} {lines : List Line} (blocks : Blocks Step children s lines t) :
    Path s lines t := by
  induction blocks with
  | nil => exact still _
  | @cons child children n s t u first rest within block tail ih =>
    have here : Path s first t := block.closed still onward (step child (by simp))
    exact onward here (ih fun c member => step c (by simp [member]))

/-- Whatever parts a state stands for, the lines are those of more parts, and the
next state stands for all of them. -/
def Renders {τ : Type} (StandsFor : List τ → σ → Prop) (print : τ → List Line) (s : σ)
    (lines : List Line) (t : σ) : Prop :=
  ∀ parts, StandsFor parts s → ∃ more, lines = more.flatMap print ∧ StandsFor (parts ++ more) t

theorem Renders.still {τ : Type} (StandsFor : List τ → σ → Prop) (print : τ → List Line) (s : σ) :
    Renders StandsFor print s [] s := by
  intro parts stands
  refine ⟨[], rfl, ?_⟩
  rwa [List.append_nil]

theorem Renders.onward {τ : Type} {StandsFor : List τ → σ → Prop} {print : τ → List Line}
    {s t u : σ} {l l' : List Line} (first : Renders StandsFor print s l t)
    (second : Renders StandsFor print t l' u) : Renders StandsFor print s (l ++ l') u := by
  intro parts stands
  obtain ⟨more, rfl, stands⟩ := first parts stands
  obtain ⟨yetMore, rfl, stands⟩ := second _ stands
  refine ⟨more ++ yetMore, List.flatMap_append.symm, ?_⟩
  rwa [← List.append_assoc]

theorem Blocks.renders {τ : Type} {StandsFor : List τ → σ → Prop} {print : τ → List Line}
    {Step : Production → σ → List Line → σ → Prop}
    (step : ∀ {p s l t}, Step p s l t → Renders StandsFor print s l t) {children : List Child}
    {s t : σ} {lines : List Line} (blocks : Blocks Step children s lines t) :
    Renders StandsFor print s lines t :=
  blocks.closed _ (Renders.still _ _) Renders.onward fun _ _ _ _ _ stepped => step stepped

/-- As `Renders`, with parts that `Written` allows. -/
def RendersAs {τ : Type} (StandsFor : List τ → σ → Prop) (print : τ → List Line)
    (Written : List τ → Prop) (s : σ) (lines : List Line) (t : σ) : Prop :=
  ∀ parts, StandsFor parts s →
    ∃ more, Written more ∧ lines = more.flatMap print ∧ StandsFor (parts ++ more) t

/-- The parts of no more than `limit` expansions in a row. -/
def InRow {τ : Type} (limit : Nat) (Written : List τ → Prop) (parts : List τ) : Prop :=
  ∃ rows : List (List τ), rows.length ≤ limit ∧ (∀ row ∈ rows, Written row) ∧ parts = rows.flatten

theorem Chain.rendersAs {τ : Type} {StandsFor : List τ → σ → Prop} {print : τ → List Line}
    {Written : List τ → Prop} {Step : σ → List Line → σ → Prop}
    (step : ∀ {s l t}, Step s l t → RendersAs StandsFor print Written s l t) {n : Nat} {s t : σ}
    {lines : List Line} (chain : Chain Step n s lines t) :
    RendersAs StandsFor print (InRow n Written) s lines t := by
  induction chain with
  | nil =>
    intro parts stands
    refine ⟨[], ⟨[], by simp, by simp, rfl⟩, rfl, ?_⟩
    rwa [List.append_nil]
  | cons head tail ih =>
    intro parts stands
    obtain ⟨row, written, rfl, stands⟩ := step head parts stands
    obtain ⟨_, ⟨rows, few, each, rfl⟩, rfl, stands⟩ := ih _ stands
    refine ⟨row ++ rows.flatten, ⟨row :: rows, ?_, ?_, rfl⟩, List.flatMap_append.symm, ?_⟩
    · rw [List.length_cons]
      omega
    · exact List.forall_mem_cons.2 ⟨written, each⟩
    · rwa [← List.append_assoc]

theorem Blocks.rendersAs {τ : Type} {StandsFor : List τ → σ → Prop} {print : τ → List Line}
    {Written : Production → List τ → Prop} {Step : Production → σ → List Line → σ → Prop}
    (step : ∀ {p s l t}, Step p s l t → RendersAs StandsFor print (Written p) s l t)
    {children : List Child} {s t : σ} {lines : List Line} (blocks : Blocks Step children s lines t) :
    RendersAs StandsFor print (fun parts => ∃ pieces, List.Forall₂ (fun (child : Child) piece =>
      InRow child.weight.val (Written child.production) piece) children pieces ∧
        parts = pieces.flatten) s lines t := by
  induction blocks with
  | nil =>
    intro parts stands
    refine ⟨[], ⟨[], .nil, rfl⟩, rfl, ?_⟩
    rwa [List.append_nil]
  | cons within block tail ih =>
    intro parts stands
    have chain := block.rendersAs (fun {_ _ _} stepped => step stepped)
    obtain ⟨_, ⟨rows, few, each, rfl⟩, rfl, stands⟩ := chain parts stands
    obtain ⟨_, ⟨pieces, others, rfl⟩, rfl, stands⟩ := ih _ stands
    refine ⟨rows.flatten ++ pieces.flatten, ⟨rows.flatten :: pieces, ?_, rfl⟩,
      List.flatMap_append.symm, ?_⟩
    · exact .cons ⟨rows, Nat.le_trans few within, each, rfl⟩ others
    · rwa [← List.append_assoc]

/-- What the children add at most, if `cost` bounds what one expansion adds. -/
def totalCost (cost : Production → Nat) : List Child → Nat
  | [] => 0
  | child :: children => child.weight.val * cost child.production + totalCost cost children

theorem totalCost_perm (cost : Production → Nat) {order children : List Child}
    (perm : order.Perm children) : totalCost cost order = totalCost cost children := by
  induction perm with
  | nil => rfl
  | cons child _ ih => simp only [totalCost, ih]
  | swap child child' rest =>
    simp only [totalCost]
    omega
  | trans _ _ ih ih' => exact ih.trans ih'

theorem Chain.measure_le {Step : σ → List Line → σ → Prop} {measure : σ → Nat} {cost : Nat}
    (step : ∀ {s l t}, Step s l t → measure t ≤ measure s + cost) {n : Nat} {s t : σ}
    {lines : List Line} (chain : Chain Step n s lines t) : measure t ≤ measure s + n * cost := by
  induction chain with
  | nil => simp
  | @cons n s t u first rest head tail ih =>
    have one := step head
    rw [Nat.succ_mul]
    omega

theorem Blocks.measure_le {Step : Production → σ → List Line → σ → Prop} {measure : σ → Nat}
    {cost : Production → Nat}
    (step : ∀ {p s l t}, Step p s l t → measure t ≤ measure s + cost p) {children : List Child}
    {s t : σ} {lines : List Line} (blocks : Blocks Step children s lines t) :
    measure t ≤ measure s + totalCost cost children := by
  induction blocks with
  | nil => simp
  | @cons child children n s t u first rest within block tail ih =>
    have here := block.measure_le (fun {_ _ _} stepped => step stepped)
    have bound := Nat.mul_le_mul_right (cost child.production) within
    rw [totalCost]
    omega

/-! ## Descents write blocks -/

theorem exists_perm_of_perm_map {α β : Type} {f : α → β} {xs : List α} {ys : List β}
    (perm : ys.Perm (xs.map f)) : ∃ zs : List α, zs.Perm xs ∧ ys = zs.map f := by
  generalize image : xs.map f = images at perm
  induction perm generalizing xs with
  | nil => exact ⟨xs, .refl _, image.symm⟩
  | cons y _ ih =>
    obtain ⟨x, rest, rfl, rfl, tail⟩ := List.map_eq_cons_iff.1 image
    obtain ⟨zs, perm, rfl⟩ := ih tail
    exact ⟨x :: zs, perm.cons x, rfl⟩
  | swap y y' ys =>
    obtain ⟨x, _, rfl, rfl, tail⟩ := List.map_eq_cons_iff.1 image
    obtain ⟨x', rest, rfl, rfl, rfl⟩ := List.map_eq_cons_iff.1 tail
    exact ⟨x' :: x :: rest, .swap _ _ _, rfl⟩
  | trans _ _ ih ih' =>
    obtain ⟨zs, perm, rfl⟩ := ih' image
    obtain ⟨zs', perm', rfl⟩ := ih rfl
    exact ⟨zs', perm'.trans perm, rfl⟩

namespace Walk

variable (view : σ → Site)

theorem always_repeated {walk : Walk (List Line)} {Step : σ → List Line → σ → Prop}
    (step : ∀ s, walk.Always (view s) fun lines site' => ∃ t, site' = view t ∧ Step s lines t)
    (n : Nat) (s : σ) :
    (walk.repeated n).Always (view s) fun lines site' =>
      ∃ t, site' = view t ∧ Chain Step n s lines t := by
  induction n generalizing s with
  | zero => exact always_pure ⟨s, rfl, .nil⟩
  | succ n ih =>
    refine (step s).bind fun first site' stepped => ?_
    obtain ⟨t, rfl, head⟩ := stepped
    refine (ih t).bind fun rest site' followed => ?_
    obtain ⟨u, rfl, tail⟩ := followed
    exact always_pure ⟨u, rfl, .cons head tail⟩

theorem always_take {offer : Offer} {Step : σ → List Line → σ → Prop}
    (step : ∀ s, offer.expansion.Always (view s) fun lines site' =>
      ∃ t, site' = view t ∧ Step s lines t) (s : σ) :
    offer.take.Always (view s) fun lines site' =>
      ∃ n ≤ offer.weight.val, ∃ t, site' = view t ∧ Chain Step n s lines t := by
  refine (draws_likely _).bind fun included _ => ?_
  cases included with
  | false => exact always_pure ⟨0, Nat.zero_le _, s, rfl, .nil⟩
  | true =>
    refine (draws_uniform _).bind fun n drawn => ?_
    exact (always_repeated view step n s).mono fun lines site' ended => ⟨n, drawn.2, ended⟩

theorem always_takeEach {g : Grammar} {Step : Production → σ → List Line → σ → Prop}
    {children : List Child}
    (step : ∀ child ∈ children, ∀ s, (g.expand child.production).Always (view s) fun lines site' =>
      ∃ t, site' = view t ∧ Step child.production s lines t) (s : σ) :
    (Offer.takeEach (g.offers children)).Always (view s) fun lines site' =>
      ∃ t, site' = view t ∧ Blocks Step children s lines t := by
  induction children generalizing s with
  | nil => exact always_pure ⟨s, rfl, .nil⟩
  | cons child children ih =>
    refine (always_take view (step child (by simp)) s).bind fun first site' taken => ?_
    obtain ⟨n, within, t, rfl, block⟩ := taken
    refine (ih (fun c member => step c (by simp [member])) t).bind fun rest site' followed => ?_
    obtain ⟨u, rfl, tail⟩ := followed
    exact always_pure ⟨u, rfl, .cons within block tail⟩

/-- A descent writes one block for each child, in some order of the children. -/
theorem always_descend {g : Grammar} (Step : Production → σ → List Line → σ → Prop)
    {children : List Child}
    (step : ∀ child ∈ children, ∀ s, (g.expand child.production).Always (view s) fun lines site' =>
      ∃ t, site' = view t ∧ Step child.production s lines t) (s : σ) :
    (descend (g.offers children)).Always (view s) fun lines site' =>
      ∃ order t, order.Perm children ∧ site' = view t ∧ Blocks Step order s lines t := by
  refine (draws_shuffle _).bind fun shuffled shuffling => ?_
  obtain ⟨order, perm, rfl⟩ := exists_perm_of_perm_map shuffling
  have stepped := always_takeEach view
    (fun child member => step child (perm.mem_iff.1 member)) s
  refine stepped.mono fun lines site' ended => ?_
  obtain ⟨t, ended⟩ := ended
  exact ⟨order, t, perm, ended⟩

end Walk

end SeedGrammar
