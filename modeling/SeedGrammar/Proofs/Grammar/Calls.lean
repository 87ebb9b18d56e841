/-
# SeedGrammar.Proofs.Grammar.Calls — all that a descent does, call by call

A descent draws an order of the children and gives each child a turn. In a turn it is drawn
whether the child is included and how often it is repeated, and then the child's production
is expanded as often, each time from exactly where the time before has ended (`Turn.Goes`).
Nothing else happens: the trail of a descent is that of the draws and calls of its turns.

What comes of it is what comes of the calls. If none is refused, their texts are the text of
the descent, turn by turn. The first that is refused is the last that happens at all
(`descend_call_by_call`).
-/
import SeedGrammar.Proofs.Walk.Keeping
import SeedGrammar.Walk.Trail

namespace SeedGrammar

set_option autoImplicit false

open Walk

/-! ## One walk after another -/

namespace Walk

section Mapped

variable {α β : Type} (walk : Walk α) (f : α → β) (w : Walker)

theorem run_bind_pure :
    (walk >>= fun value => pure (f value)).run w = ((walk.run w).1.map f, (walk.run w).2) := by
  rw [run_bind]
  rcases walk.run w with ⟨e | value, v⟩
  · rfl
  · rfl

theorem trail_bind_pure : (walk >>= fun value => pure (f value)).trail w = walk.trail w := by
  rw [trail_bind]
  rcases walk.run w with ⟨e | value, v⟩
  · exact List.append_nil _
  · exact List.append_nil _

end Mapped

variable (first rest : Walk (List Line)) (w : Walker)

/-- The lines of two walks. -/
def followedBy : Walk (List Line) := do
  let lines ← first
  let more ← rest
  return lines ++ more

theorem repeated_succ (walk : Walk (List Line)) (n : Nat) :
    walk.repeated (n + 1) = walk.followedBy (walk.repeated n) :=
  rfl

theorem run_followedBy :
    (first.followedBy rest).run w =
      match first.run w with
      | (.ok lines, v) => ((rest.run v).1.map (lines ++ ·), (rest.run v).2)
      | (.error e, v) => (.error e, v) := by
  unfold followedBy
  rw [run_bind]
  rcases first.run w with ⟨e | lines, v⟩
  · rfl
  · exact run_bind_pure rest _ v

theorem trail_followedBy :
    (first.followedBy rest).trail w =
      first.trail w ++
        match first.run w with
        | (.ok _, v) => rest.trail v
        | (.error _, _) => [] := by
  unfold followedBy
  rw [trail_bind]
  rcases first.run w with ⟨e | lines, v⟩
  · rfl
  · exact congrArg (_ ++ ·) (trail_bind_pure rest _ v)

end Walk

/-! ## Calls -/

/-- A production that is expanded, and the walker that expands it. -/
structure Call where
  production : Production
  walker : Walker

namespace Call

variable (g : Grammar)

/-- The text that is written, or the refusal. -/
def answer (call : Call) : Except Error String :=
  ((g.expand call.production).run call.walker).1.map Line.textOf

/-- The walker afterwards, also if the call is refused. -/
def after (call : Call) : Walker :=
  ((g.expand call.production).run call.walker).2

def trail (call : Call) : List Moment :=
  (g.expand call.production).trail call.walker

/-- Calls of one production in a row, each from exactly where the one before it has ended. -/
inductive Row (p : Production) : Walker → List Call → Walker → Prop where
  | nil (w : Walker) : Row p w [] w
  | cons {w v : Walker} {calls : List Call} (rest : Row p (after g ⟨p, w⟩) calls v) :
      Row p w (⟨p, w⟩ :: calls) v

/-- None of the calls is refused, and their texts are put together. -/
def Write (calls : List Call) (text : String) : Prop :=
  ∃ texts, List.Forall₂ (fun call text => answer g call = .ok text) calls texts ∧
    text = String.join texts

/-- The last of the calls is refused, and none before it. -/
def Stop (calls : List Call) (e : Error) : Prop :=
  ∃ earlier last, calls = earlier ++ [last] ∧ (∃ text, Write g earlier text) ∧
    last.answer g = .error e

/-- What comes of `n` calls: all of them are made and write the result, or the last one made
stops them. -/
def ComeTo (n : Nat) (calls : List Call) : Except Error (List Line) → Prop
  | .ok lines => calls.length = n ∧ Write g calls (Line.textOf lines)
  | .error e => Stop g calls e

variable {g} {call : Call} {calls : List Call} {text first : String} {e : Error}

theorem Write.nil : Write g [] "" :=
  ⟨[], .nil, by simp⟩

theorem Write.cons (answered : call.answer g = .ok first) (rest : Write g calls text) :
    Write g (call :: calls) (first ++ text) := by
  obtain ⟨texts, each, rfl⟩ := rest
  exact ⟨first :: texts, .cons answered each, by simp⟩

theorem Stop.cons (answered : call.answer g = .ok first) (rest : Stop g calls e) :
    Stop g (call :: calls) e := by
  obtain ⟨earlier, last, rfl, ⟨text, written⟩, refused⟩ := rest
  exact ⟨call :: earlier, last, rfl, ⟨first ++ text, written.cons answered⟩, refused⟩

theorem Stop.single (refused : call.answer g = .error e) : Stop g [call] e :=
  ⟨[], call, rfl, ⟨"", .nil⟩, refused⟩

theorem ComeTo.cons {n : Nat} {lines : List Line} {result : Except Error (List Line)}
    (answered : call.answer g = .ok (Line.textOf lines)) (rest : ComeTo g n calls result) :
    ComeTo g (n + 1) (call :: calls) (result.map (lines ++ ·)) := by
  cases result with
  | error e => exact Stop.cons answered rest
  | ok more =>
    obtain ⟨all, written⟩ := rest
    refine ⟨congrArg Nat.succ all, ?_⟩
    rw [Line.textOf_append]
    exact written.cons answered

end Call

/-- A walk repeated so many times is a row of calls. -/
structure Repeats (g : Grammar) (p : Production) (n : Nat) (w : Walker) (calls : List Call) :
    Prop where
  row : Call.Row g p w calls (((g.expand p).repeated n).run w).2
  trail : ((g.expand p).repeated n).trail w = calls.flatMap (Call.trail g)
  few : calls.length ≤ n
  result : Call.ComeTo g n calls (((g.expand p).repeated n).run w).1

namespace Repeats

variable {g : Grammar} {p : Production} {n : Nat} {w v : Walker}

theorem zero (w : Walker) : Repeats g p 0 w [] where
  row := .nil w
  trail := rfl
  few := Nat.le_refl 0
  result := ⟨rfl, by simpa using Call.Write.nil⟩

theorem refused {e : Error} (ran : (g.expand p).run w = (.error e, v)) :
    Repeats g p (n + 1) w [⟨p, w⟩] := by
  have after : (⟨p, w⟩ : Call).after g = v := congrArg Prod.snd ran
  have answer : (⟨p, w⟩ : Call).answer g = .error e := by rw [Call.answer, ran]; rfl
  constructor
  case row =>
    rw [repeated_succ, run_followedBy, ran]
    refine .cons ?_
    rw [after]
    exact .nil v
  case trail =>
    rw [repeated_succ, trail_followedBy, ran]
    simp [Call.trail]
  case few => exact Nat.succ_le_succ (Nat.zero_le n)
  case result =>
    rw [repeated_succ, run_followedBy, ran]
    exact .single answer

theorem cons {lines : List Line} {calls : List Call} (ran : (g.expand p).run w = (.ok lines, v))
    (rest : Repeats g p n v calls) : Repeats g p (n + 1) w (⟨p, w⟩ :: calls) := by
  have after : (⟨p, w⟩ : Call).after g = v := congrArg Prod.snd ran
  have answer : (⟨p, w⟩ : Call).answer g = .ok (Line.textOf lines) := by
    rw [Call.answer, ran]
    rfl
  constructor
  case row =>
    rw [repeated_succ, run_followedBy, ran]
    refine .cons ?_
    rw [after]
    exact rest.row
  case trail =>
    rw [repeated_succ, trail_followedBy, ran]
    exact congrArg (_ ++ ·) rest.trail
  case few => exact Nat.succ_le_succ rest.few
  case result =>
    rw [repeated_succ, run_followedBy, ran]
    exact rest.result.cons answer

end Repeats

theorem exists_repeats (g : Grammar) (p : Production) (n : Nat) (w : Walker) :
    ∃ calls, Repeats g p n w calls := by
  induction n generalizing w with
  | zero => exact ⟨[], .zero w⟩
  | succ n ih =>
    cases ran : (g.expand p).run w with | mk result v =>
    cases result with
    | error e => exact ⟨_, .refused ran⟩
    | ok lines =>
      obtain ⟨calls, rest⟩ := ih v
      exact ⟨_, .cons ran rest⟩

/-! ## Turns -/

/-- How many equally likely outcomes there are when it is drawn whether a child is included. -/
def Child.odds (child : Child) : Positive := ⟨child.weight.val + 1, Nat.succ_pos _⟩

/-- How many equally likely outcomes there are when it is drawn how often it is repeated. -/
def Child.range (child : Child) : Positive := ⟨child.weight.val, child.weight.property.1⟩

/-- What is drawn for one child, and the calls that follow. -/
structure Turn where
  child : Child
  /-- The number of calls that is drawn, and none if the child is passed over. -/
  repeats : Nat
  draws : List Moment
  calls : List Call

namespace Turn

variable (g : Grammar)

/-- All that happens in a turn, in this order. -/
def trail (turn : Turn) : List Moment :=
  turn.draws ++ turn.calls.flatMap (Call.trail g)

/-- From a walker to the one after a turn. Draws exchange the dice and leave the rest. -/
inductive Goes : Walker → Turn → Walker → Prop where
  | passed {child : Child} {w : Walker} {dice : Dice}
      (passed : (likely child.odds).run w = (.ok false, { w with dice })) :
      Goes w ⟨child, 0, [⟨w, .roll child.odds⟩], []⟩ { w with dice }
  | included {child : Child} {w v : Walker} {dice dice' : Dice} {n : Nat} {calls : List Call}
      (included : (likely child.odds).run w = (.ok true, { w with dice }))
      (drawn : (uniform child.range).run { w with dice } = (.ok n, { w with dice := dice' }))
      (positive : 1 ≤ n) (within : n ≤ child.weight.val) (few : calls.length ≤ n)
      (row : Call.Row g child.production { w with dice := dice' } calls v) :
      Goes w
        ⟨child, n, [⟨w, .roll child.odds⟩, ⟨{ w with dice }, .roll child.range⟩], calls⟩ v

/-- All calls that were drawn are made, none is refused, and their texts are the block. -/
def Writes (turn : Turn) (block : String) : Prop :=
  turn.calls.length = turn.repeats ∧ Call.Write g turn.calls block

/-- One turn after another. -/
inductive Row : Walker → List Turn → Walker → Prop where
  | nil (w : Walker) : Row w [] w
  | cons {w v u : Walker} {turn : Turn} {turns : List Turn} (goes : Goes g w turn v)
      (rest : Row v turns u) : Row w (turn :: turns) u

/-- What comes of turns for some children in this order: all children have their turns, and the
blocks of these make up the result, or the last call of the last turn stops them. -/
def ComeTo (order : List Child) (turns : List Turn) : Except Error (List Line) → Prop
  | .ok lines => turns.map Turn.child = order ∧
      ∃ blocks, List.Forall₂ (Writes g) turns blocks ∧ Line.textOf lines = String.join blocks
  | .error e => turns.map Turn.child <+: order ∧
      ∃ earlier last, turns = earlier ++ [last] ∧
        (∃ blocks, List.Forall₂ (Writes g) earlier blocks) ∧ Call.Stop g last.calls e

variable {g} {turn : Turn} {turns : List Turn} {order : List Child}

theorem ComeTo.nil : ComeTo g [] [] (.ok []) :=
  ⟨rfl, [], .nil, by simp⟩

theorem ComeTo.stop {e : Error} (stopped : Call.Stop g turn.calls e) :
    ComeTo g (turn.child :: order) [turn] (.error e) :=
  ⟨⟨order, rfl⟩, [], turn, rfl, ⟨[], .nil⟩, stopped⟩

theorem ComeTo.cons {lines : List Line} {result : Except Error (List Line)}
    (written : Writes g turn (Line.textOf lines)) (rest : ComeTo g order turns result) :
    ComeTo g (turn.child :: order) (turn :: turns) (result.map (lines ++ ·)) := by
  cases result with
  | error e =>
    obtain ⟨started, earlier, last, rfl, ⟨blocks, each⟩, stopped⟩ := rest
    refine ⟨?_, turn :: earlier, last, rfl, ⟨_, .cons written each⟩, stopped⟩
    exact List.cons_prefix_cons.2 ⟨rfl, started⟩
  | ok more =>
    obtain ⟨rfl, blocks, each, text⟩ := rest
    refine ⟨rfl, _, .cons written each, ?_⟩
    rw [Line.textOf_append, text, String.join_cons]

end Turn

/-- What a descent does with one of its children. -/
def Child.take (g : Grammar) (child : Child) : Walk (List Line) :=
  Offer.take ⟨child.weight, g.expand child.production⟩

/-- A child is taken in a turn. -/
structure Takes (g : Grammar) (child : Child) (w : Walker) (turn : Turn) : Prop where
  same : turn.child = child
  goes : Turn.Goes g w turn ((child.take g).run w).2
  trail : (child.take g).trail w = turn.trail g
  result : Call.ComeTo g turn.repeats turn.calls ((child.take g).run w).1

theorem Child.take_eq (g : Grammar) (child : Child) :
    child.take g = do
      if ← likely child.odds then
        (g.expand child.production).repeated (← uniform child.range)
      else
        return [] :=
  rfl

namespace Takes

variable {g : Grammar} {child : Child} {w : Walker} {dice : Dice}

theorem passed (coin : (likely child.odds).run w = (.ok false, { w with dice })) :
    Takes g child w ⟨child, 0, [⟨w, .roll child.odds⟩], []⟩ := by
  have tossed : (likely child.odds).trail w = [⟨w, .roll child.odds⟩] := rfl
  have ran : (child.take g).run w = (.ok [], { w with dice }) := by
    rw [Child.take_eq, run_bind, coin]
    rfl
  have none : Repeats g child.production 0 w [] := .zero w
  constructor
  case same => rfl
  case goes =>
    rw [ran]
    exact .passed coin
  case trail =>
    rw [Child.take_eq, trail_bind, coin, tossed]
    rfl
  case result =>
    rw [ran]
    exact none.result

theorem included {dice' : Dice} {n : Nat} {calls : List Call}
    (coin : (likely child.odds).run w = (.ok true, { w with dice }))
    (drawn : (uniform child.range).run { w with dice } = (.ok n, { w with dice := dice' }))
    (positive : 1 ≤ n) (within : n ≤ child.weight.val)
    (repeats : Repeats g child.production n { w with dice := dice' } calls) :
    Takes g child w
      ⟨child, n, [⟨w, .roll child.odds⟩, ⟨{ w with dice }, .roll child.range⟩], calls⟩ := by
  have tossed : (likely child.odds).trail w = [⟨w, .roll child.odds⟩] := rfl
  have rolled : (uniform child.range).trail { w with dice } =
      [⟨{ w with dice }, .roll child.range⟩] := rfl
  have ran : (child.take g).run w =
      ((g.expand child.production).repeated n).run { w with dice := dice' } := by
    rw [Child.take_eq, run_bind, coin]
    dsimp only
    rw [if_pos rfl, run_bind, drawn]
  constructor
  case same => rfl
  case goes =>
    rw [ran]
    exact .included coin drawn positive within repeats.few repeats.row
  case trail =>
    rw [Child.take_eq, trail_bind, coin, tossed]
    dsimp only
    rw [if_pos rfl, trail_bind, drawn, rolled]
    dsimp only
    rw [repeats.trail]
    rfl
  case result =>
    rw [ran]
    exact repeats.result

end Takes

theorem exists_takes (g : Grammar) (child : Child) (w : Walker) :
    ∃ turn, Takes g child w turn := by
  obtain ⟨included, dice, coin, -⟩ := (draws_likely child.odds).exists_run w
  cases included with
  | false => exact ⟨_, .passed coin⟩
  | true =>
    obtain ⟨n, dice', drawn, positive, within⟩ :=
      (draws_uniform child.range).exists_run { w with dice }
    obtain ⟨calls, repeats⟩ := exists_repeats g child.production n { w with dice := dice' }
    exact ⟨_, .included coin drawn positive within repeats⟩

/-! ## Descents -/

/-- Children are taken one after another. -/
structure TakesEach (g : Grammar) (order : List Child) (w : Walker) (turns : List Turn) :
    Prop where
  row : Turn.Row g w turns ((Offer.takeEach (g.offers order)).run w).2
  trail : (Offer.takeEach (g.offers order)).trail w = turns.flatMap (Turn.trail g)
  result : Turn.ComeTo g order turns ((Offer.takeEach (g.offers order)).run w).1

theorem takeEach_cons (g : Grammar) (child : Child) (order : List Child) :
    Offer.takeEach (g.offers (child :: order)) =
      (child.take g).followedBy (Offer.takeEach (g.offers order)) :=
  rfl

namespace TakesEach

variable {g : Grammar} {child : Child} {order : List Child} {turn : Turn} {w v : Walker}

theorem nil (w : Walker) : TakesEach g [] w [] where
  row := .nil w
  trail := rfl
  result := .nil

theorem stopped {e : Error} (takes : Takes g child w turn)
    (ran : (child.take g).run w = (.error e, v)) : TakesEach g (child :: order) w [turn] := by
  obtain ⟨rfl, goes, trail, result⟩ := takes
  rw [ran] at goes result
  constructor
  case row =>
    rw [takeEach_cons, run_followedBy, ran]
    exact .cons goes (.nil v)
  case trail =>
    rw [takeEach_cons, trail_followedBy, ran, trail]
    simp
  case result =>
    rw [takeEach_cons, run_followedBy, ran]
    exact .stop result

theorem cons {lines : List Line} {turns : List Turn} (takes : Takes g child w turn)
    (ran : (child.take g).run w = (.ok lines, v)) (rest : TakesEach g order v turns) :
    TakesEach g (child :: order) w (turn :: turns) := by
  obtain ⟨rfl, goes, trail, result⟩ := takes
  rw [ran] at goes result
  constructor
  case row =>
    rw [takeEach_cons, run_followedBy, ran]
    exact .cons goes rest.row
  case trail =>
    rw [takeEach_cons, trail_followedBy, ran, trail]
    exact congrArg (_ ++ ·) rest.trail
  case result =>
    rw [takeEach_cons, run_followedBy, ran]
    exact .cons result rest.result

end TakesEach

theorem exists_takesEach (g : Grammar) (order : List Child) (w : Walker) :
    ∃ turns, TakesEach g order w turns := by
  induction order generalizing w with
  | nil => exact ⟨[], .nil w⟩
  | cons child order ih =>
    obtain ⟨turn, takes⟩ := exists_takes g child w
    cases ran : (child.take g).run w with | mk result v =>
    cases result with
    | error e => exact ⟨_, .stopped takes ran⟩
    | ok lines =>
      obtain ⟨turns, rest⟩ := ih v
      exact ⟨_, .cons takes ran rest⟩

theorem shuffle_map {α β : Type} (f : α → β) (xs : List α) :
    shuffle (xs.map f) = do return (← shuffle xs).map f := by
  unfold shuffle
  simp only [List.length_map, Shuffle.permute_map, bind_assoc, pure_bind]

/-- A descent shuffles the children and takes them in the order they come to. -/
theorem descend_offers (g : Grammar) (children : List Child) :
    descend (g.offers children) =
      shuffle children >>= fun order => Offer.takeEach (g.offers order) := by
  unfold descend Grammar.offers
  simp only [shuffle_map, bind_assoc, pure_bind]

theorem mem_trail_rollEach {sides : List Positive} {w : Walker} {moment : Moment}
    (member : moment ∈ (rollEach sides).trail w) : ∃ n, moment.action = .roll n := by
  induction sides generalizing w with
  | nil => cases member
  | cons n sides ih =>
    obtain ⟨draw, dice, ran, -⟩ := (draws_roll n).exists_run w
    rw [rollEach, trail_bind, ran] at member
    dsimp only at member
    rw [trail_bind_pure] at member
    rcases List.mem_append.1 member with rolled | later
    · obtain rfl := List.mem_singleton.1 rolled
      exact ⟨n, rfl⟩
    · exact ih later

/-- Nothing but draws happens while an order is found. -/
theorem mem_trail_shuffle {α : Type} {xs : List α} {w : Walker} {moment : Moment}
    (member : moment ∈ (shuffle xs).trail w) : ∃ n, moment.action = .roll n := by
  rw [shuffle, trail_bind_pure] at member
  exact mem_trail_rollEach member

/-- **A descent is an order of the children and one turn for each.** First the order is drawn,
by draws alone. From there the turns are taken, and nothing else happens. Either every child
has its turn, no call is refused, and the text is put together from the texts of the calls; or
the first call that is refused ends the last turn, and the descent with it. -/
theorem descend_call_by_call (g : Grammar) (children : List Child) (w : Walker) :
    ∃ order dice turns, order.Perm children ∧
      (shuffle children).run w = (.ok order, { w with dice }) ∧
      (∀ moment ∈ (shuffle children).trail w, ∃ n, moment.action = .roll n) ∧
      Turn.Row g { w with dice } turns ((descend (g.offers children)).run w).2 ∧
      (descend (g.offers children)).trail w =
        (shuffle children).trail w ++ turns.flatMap (Turn.trail g) ∧
      Turn.ComeTo g order turns ((descend (g.offers children)).run w).1 := by
  obtain ⟨order, dice, shuffled, perm⟩ := (draws_shuffle children).exists_run w
  obtain ⟨turns, each⟩ := exists_takesEach g order { w with dice }
  have ran : (descend (g.offers children)).run w =
      (Offer.takeEach (g.offers order)).run { w with dice } := by
    rw [descend_offers, run_bind, shuffled]
  refine ⟨order, dice, turns, perm, shuffled, fun _ => mem_trail_shuffle, ?row, ?trail, ?result⟩
  case row =>
    rw [ran]
    exact each.row
  case trail =>
    rw [descend_offers, trail_bind, shuffled]
    exact congrArg (_ ++ ·) each.trail
  case result =>
    rw [ran]
    exact each.result

end SeedGrammar
