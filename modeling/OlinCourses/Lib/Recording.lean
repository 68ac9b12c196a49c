import Mathlib.Tactic

/-!
# Programs that record what they do

A program runs on a memory, may fail, and records events as it goes. Its effect is the run
without the events, and what is recorded is bounded rule by rule along the program.
-/
namespace OlinCourses.Recording

variable {μ ε α β : Type}

structure Outcome (μ ε α : Type) where
  value : α
  memory : μ
  events : List ε

/-- `none` is a failure. -/
def Program (μ ε α : Type) : Type := μ → Option (Outcome μ ε α)

instance : Monad (Program μ ε) where
  pure a := fun m => some ⟨a, m, []⟩
  bind p q := fun m => (p m).bind fun r =>
    (q r.value r.memory).map fun r' => { r' with events := r.events ++ r'.events }

def record (e : ε) : Program μ ε Unit := fun m => some ⟨(), m, [e]⟩

/-- An action on the memory that is not recorded. -/
def act (f : μ → Option (α × μ)) : Program μ ε α := fun m => (f m).map fun r => ⟨r.1, r.2, []⟩

theorem toNat_succ_of_lt {w : ℕ} {i bound : BitVec w} (h : i < bound) :
    (i + 1#w).toNat = i.toNat + 1 := by
  have hlt : i.toNat < bound.toNat := h
  have hbound := bound.isLt
  rw [BitVec.toNat_add, BitVec.toNat_ofNat, Nat.add_mod_mod, Nat.mod_eq_of_lt (by omega)]

theorem le_of_succ_le {w : ℕ} {i j bound : BitVec w} (h : i < bound) (hle : i + 1#w ≤ j) :
    i ≤ j := by
  have hsucc : (i + 1#w).toNat ≤ j.toNat := hle
  rw [toNat_succ_of_lt h] at hsucc
  exact show i.toNat ≤ j.toNat by omega

/-- `for (; i < bound; i++)` on unsigned numbers, with a program for the test. -/
def forUp {w : ℕ} (bound : BitVec w) (test : Program μ ε Unit)
    (body : BitVec w → Program μ ε Unit) (i : BitVec w) : Program μ ε Unit := do
  test
  if _hlt : i < bound then
    body i
    forUp bound test body (i + 1#w)
  else pure ()
termination_by bound.toNat - i.toNat
decreasing_by
  have hlt : i.toNat < bound.toNat := _hlt
  rw [toNat_succ_of_lt _hlt]
  omega

/-- The value and the memory. -/
def Program.run (p : Program μ ε α) (m : μ) : Option (α × μ) :=
  (p m).map fun r => (r.value, r.memory)

@[simp] theorem run_pure (a : α) (m : μ) : (pure a : Program μ ε α).run m = some (a, m) := rfl

@[simp] theorem run_bind (p : Program μ ε α) (q : α → Program μ ε β) (m : μ) :
    (p >>= q).run m = (p.run m).bind fun r => (q r.1).run r.2 := by
  have hbind : (p >>= q) m = (p m).bind fun r =>
    (q r.value r.memory).map fun r' => { r' with events := r.events ++ r'.events } := rfl
  rw [Program.run, Program.run, hbind]
  cases p m with
  | none => rfl
  | some r =>
    simp only [Option.bind_some, Option.map_some, Option.map_map]
    rfl

@[simp] theorem run_record (e : ε) (m : μ) : (record e : Program μ ε Unit).run m = some ((), m) :=
  rfl

@[simp] theorem run_act (f : μ → Option (α × μ)) (m : μ) :
    (act f : Program μ ε α).run m = f m := by
  rw [Program.run, act, Option.map_map]
  exact Option.map_id'

/-- The memory after a program. -/
def Program.exec (p : Program μ ε Unit) (m : μ) : Option μ := (p.run m).map Prod.snd

theorem run_eq_exec (p : Program μ ε Unit) (m : μ) :
    p.run m = (p.exec m).map fun m' => ((), m') := by
  rw [Program.exec, Option.map_map]
  exact (Option.map_id').symm

theorem exists_outcome {p : Program μ ε Unit} {m m' : μ} (h : p.exec m = some m') :
    ∃ r, p m = some r := by
  obtain ⟨x, hx, -⟩ := Option.map_eq_some_iff.mp h
  obtain ⟨r, hr, -⟩ := Option.map_eq_some_iff.mp hx
  exact ⟨r, hr⟩

theorem exec_bind (p : Program μ ε α) (q : α → Program μ ε Unit) (m : μ) :
    (p >>= q).exec m = (p.run m).bind fun r => (q r.1).exec r.2 := by
  rw [Program.exec, run_bind, Option.map_bind]
  rfl

theorem exec_seq (p q : Program μ ε Unit) (m : μ) :
    (p >>= fun _ => q).exec m = (p.exec m).bind q.exec := by
  rw [exec_bind, run_eq_exec, Option.bind_map]
  rfl

theorem exec_record_seq (e : ε) (q : Program μ ε Unit) (m : μ) :
    (record e >>= fun _ => q).exec m = q.exec m := by
  rw [exec_bind, run_record, Option.bind_some]

theorem exec_seq_record (p : Program μ ε Unit) (e : ε) (m : μ) :
    (p >>= fun _ => record e).exec m = p.exec m := by
  rw [exec_seq]
  exact Option.bind_fun_some _

/-- The effect of a loop is that of its rounds. -/
theorem exec_forUp {w : ℕ} {bound : BitVec w} {test : Program μ ε Unit}
    (htest : ∀ m, test.run m = some ((), m)) {body : BitVec w → Program μ ε Unit} {i : BitVec w}
    {f : μ → ℕ → Option μ} (hbody : ∀ j, i ≤ j → j < bound → ∀ m, (body j).exec m = f m j.toNat)
    (m : μ) : (forUp bound test body i).exec m =
      (List.range' i.toNat (bound.toNat - i.toNat)).foldlM f m := by
  induction hn : bound.toNat - i.toNat generalizing i m with
  | zero =>
    have hnot : ¬ i < bound := fun hlt => by
      have hlt' : i.toNat < bound.toNat := hlt
      omega
    rw [forUp, exec_bind, htest, Option.bind_some, dif_neg hnot]
    rfl
  | succ n ih =>
    have hlt : i < bound := show i.toNat < bound.toNat by omega
    have hsucc := toNat_succ_of_lt hlt
    have hrest := ih (i := i + 1#w) fun j hij => hbody j (le_of_succ_le hlt hij)
    rw [forUp, exec_bind, htest, Option.bind_some, dif_pos hlt, exec_seq,
      hbody i (BitVec.le_refl i) hlt, List.range'_succ, List.foldlM_cons, ← hsucc]
    exact bind_congr fun m' => hrest m' (by omega)

/-- Whatever is recorded satisfies `Φ`, if the program does not fail. -/
def Program.Emits (p : Program μ ε α) (Φ : List ε → Prop) : Prop :=
  ∀ m r, p m = some r → Φ r.events

theorem emits_pure {Φ : List ε → Prop} (h : Φ []) (a : α) : (pure a : Program μ ε α).Emits Φ := by
  rintro m r ⟨⟩
  exact h

theorem emits_record {Φ : List ε → Prop} {e : ε} (h : Φ [e]) :
    (record e : Program μ ε Unit).Emits Φ := by
  rintro m r ⟨⟩
  exact h

theorem emits_act {Φ : List ε → Prop} (h : Φ []) (f : μ → Option (α × μ)) :
    (act f : Program μ ε α).Emits Φ := by
  intro m r hr
  obtain ⟨r', -, rfl⟩ := Option.map_eq_some_iff.mp hr
  exact h

theorem Program.Emits.bind {p : Program μ ε α} {q : α → Program μ ε β} {Φ Ψ Θ : List ε → Prop}
    (hp : p.Emits Φ) (hq : ∀ a, (q a).Emits Ψ)
    (h : ∀ es es', Φ es → Ψ es' → Θ (es ++ es')) : (p >>= q).Emits Θ := by
  intro m r hr
  obtain ⟨r₁, hr₁, hrest⟩ := Option.bind_eq_some_iff.mp hr
  obtain ⟨r₂, hr₂, rfl⟩ := Option.map_eq_some_iff.mp hrest
  exact h _ _ (hp m r₁ hr₁) (hq _ _ r₂ hr₂)

section Member

variable {p : Program μ ε α} {q : α → Program μ ε β} {e : ε}

theorem Program.Emits.mem_left (hp : p.Emits (e ∈ ·)) : (p >>= q).Emits (e ∈ ·) :=
  hp.bind (Ψ := fun _ => True) (fun _ _ _ _ => trivial) fun _ es' he _ =>
    List.mem_append_left es' he

theorem Program.Emits.mem_right (hq : ∀ a, (q a).Emits (e ∈ ·)) : (p >>= q).Emits (e ∈ ·) :=
  Program.Emits.bind (Φ := fun _ => True) (fun _ _ _ => trivial) hq fun es _ _ he =>
    List.mem_append_right es he

end Member

/-- Bounds on what is recorded that add up. -/
structure Additive (Φ : ℕ → List ε → Prop) : Prop where
  nil : Φ 0 []
  append : ∀ {a b es es'}, Φ a es → Φ b es' → Φ (a + b) (es ++ es')

namespace Additive

variable {Φ : ℕ → List ε → Prop} (hΦ : Additive Φ)

include hΦ

theorem bind {p : Program μ ε α} {q : α → Program μ ε β} {a b : ℕ} (hp : p.Emits (Φ a))
    (hq : ∀ x, (q x).Emits (Φ b)) : (p >>= q).Emits (Φ (a + b)) :=
  hp.bind hq fun _ _ => hΦ.append

theorem forUp {w : ℕ} {bound : BitVec w} {test : Program μ ε Unit} (htest : test.Emits (Φ 0))
    {body : BitVec w → Program μ ε Unit} {a : ℕ} {i : BitVec w}
    (hbody : ∀ j, i ≤ j → j < bound → (body j).Emits (Φ a)) :
    (forUp bound test body i).Emits (Φ ((bound.toNat - i.toNat) * a)) := by
  induction hn : bound.toNat - i.toNat generalizing i with
  | zero =>
    have hnot : ¬ i < bound := fun hlt => by
      have hlt' : i.toNat < bound.toNat := hlt
      omega
    rw [Recording.forUp, dif_neg hnot, Nat.zero_mul]
    exact hΦ.bind htest fun _ => emits_pure hΦ.nil _
  | succ n ih =>
    have hlt : i < bound := show i.toNat < bound.toNat by omega
    have hsucc := toNat_succ_of_lt hlt
    have hrest := ih (i := i + 1#w) (fun j hij => hbody j (le_of_succ_le hlt hij)) (by omega)
    have hround := hΦ.bind (hbody i (BitVec.le_refl i) hlt) fun _ => hrest
    have hall := hΦ.bind htest fun _ => hround
    rw [Recording.forUp, dif_pos hlt, Nat.succ_mul, Nat.add_comm]
    rwa [Nat.zero_add] at hall

end Additive

end OlinCourses.Recording
