import Mathlib.Tactic.Common

/-!
The course of a system that makes one move after another, each of which may make a call.

What is asked of every move of a course is said by `Course.Along`, of the state that the move is
made in and of the move itself. What one such move keeps a whole course keeps
(`Course.Along.keeps`).
-/

namespace TableTotals.Course

variable {σ μ γ : Type} (step : σ → μ → σ × Option γ)

def run (s : σ) (moves : List μ) : σ := moves.foldl (fun s m => (step s m).1) s

def calls : σ → List μ → List γ
  | _, [] => []
  | s, m :: rest => (step s m).2.toList ++ calls (step s m).1 rest

/-- Something holds of every move, and of the state that it is made in. -/
def Along (P : σ → μ → Prop) : σ → List μ → Prop
  | _, [] => True
  | s, m :: rest => P s m ∧ Along P (step s m).1 rest

instance decidableAlong (P : σ → μ → Prop) [∀ s m, Decidable (P s m)] :
    ∀ (s : σ) (moves : List μ), Decidable (Along step P s moves)
  | _, [] => .isTrue trivial
  | s, m :: rest =>
    have := decidableAlong P (step s m).1 rest
    inferInstanceAs (Decidable (P s m ∧ Along step P _ rest))

variable {step} {s : σ} {m : μ} {moves more : List μ} {P Q : σ → μ → Prop}

lemma run_append : run step s (moves ++ more) = run step (run step s moves) more :=
  List.foldl_append

lemma calls_append :
    calls step s (moves ++ more) = calls step s moves ++ calls step (run step s moves) more := by
  induction moves generalizing s with
  | nil => rfl
  | cons m rest ih =>
    rw [List.cons_append, calls, calls, ih, List.append_assoc]
    rfl

namespace Along

lemma append (h : Along step P s (moves ++ more)) :
    Along step P s moves ∧ Along step P (run step s moves) more := by
  induction moves generalizing s with
  | nil => exact ⟨trivial, h⟩
  | cons m rest ih =>
    obtain ⟨hrest, hmore⟩ := ih h.2
    exact ⟨⟨h.1, hrest⟩, hmore⟩

lemma and (h : Along step P s moves) (h' : Along step Q s moves) :
    Along step (fun s m => P s m ∧ Q s m) s moves := by
  induction moves generalizing s with
  | nil => trivial
  | cons m rest ih => exact ⟨⟨h.1, h'.1⟩, ih h.2 h'.2⟩

lemma of_moves {P : μ → Prop} (h : ∀ m ∈ moves, P m) : Along step (fun _ m => P m) s moves := by
  induction moves generalizing s with
  | nil => trivial
  | cons m rest ih => exact ⟨h m (by simp), ih fun m hm => h m (by simp [hm])⟩

lemma of_calls {P : γ → Prop} (h : ∀ c ∈ calls step s moves, P c) :
    Along step (fun s m => ∀ c ∈ (step s m).2, P c) s moves := by
  induction moves generalizing s with
  | nil => trivial
  | cons m rest ih =>
    simp only [calls, List.mem_append, Option.mem_toList] at h
    exact ⟨fun c hc => h c (.inl hc), ih fun c hc => h c (.inr hc)⟩

/-- **What one move keeps, a whole course keeps.** -/
theorem keeps {I : σ → Prop} (hstep : ∀ s m, P s m → I s → I (step s m).1)
    (h : Along step P s moves) (hs : I s) : I (run step s moves) := by
  induction moves generalizing s with
  | nil => exact hs
  | cons m rest ih => exact ih h.2 (hstep s m h.1 hs)

theorem run_keeps {I : σ → Prop} (hstep : ∀ s m, I s → I (step s m).1) (hs : I s) :
    I (run step s moves) :=
  (of_moves (P := fun _ => True) fun _ _ => trivial).keeps (fun s m _ => hstep s m) hs

/-- So it is with what depends on the calls that were made as well. -/
theorem keeps_calls {I : σ → List γ → Prop} (before : List γ)
    (hstep : ∀ s m done, P s m → I s done → I (step s m).1 (done ++ (step s m).2.toList))
    (h : Along step P s moves) (hs : I s before) :
    I (run step s moves) (before ++ calls step s moves) := by
  induction moves generalizing s before with
  | nil => simpa [run, calls] using hs
  | cons m rest ih =>
    rw [calls, ← List.append_assoc]
    exact ih _ h.2 (hstep s m before h.1 hs)

end Along

end TableTotals.Course
