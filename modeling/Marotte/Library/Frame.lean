import Mathlib.Init

/-! # Relations that a state computation keeps

A computation on a state relates the state that it finds to the state that it leaves. A relation
that is reflexive and transitive is kept by a sequence of computations that keep it.
-/
namespace Marotte

variable {σ α β : Type}

/-- A computation leads every state to a related one. -/
def Keeps (R : σ → σ → Prop) (m : StateM σ α) : Prop := ∀ s, R s (m s).2

/-- Reflexive and transitive, as the relations that a sequence of computations keeps. -/
structure Composes (R : σ → σ → Prop) : Prop where
  refl : ∀ s, R s s
  trans : ∀ {s t u}, R s t → R t u → R s u

namespace Composes

variable {R : σ → σ → Prop} (hR : Composes R)
include hR

theorem keeps_pure (a : α) : Keeps R (pure a : StateM σ α) := hR.refl

theorem keeps_bind {m : StateM σ α} {f : α → StateM σ β} (hm : Keeps R m)
    (hf : ∀ a, Keeps R (f a)) : Keeps R (m >>= f) :=
  fun s => hR.trans (hm s) (hf (m s).1 (m s).2)

theorem keeps_mapM {f : α → StateM σ β} (hf : ∀ a, Keeps R (f a)) (l : List α) :
    Keeps R (l.mapM f) := by
  induction l with
  | nil => exact hR.keeps_pure []
  | cons a l ih =>
    rw [List.mapM_cons]
    apply hR.keeps_bind (hf a)
    intro b
    exact hR.keeps_bind ih fun bs => hR.keeps_pure _

end Composes

theorem keeps_ite {R : σ → σ → Prop} {c : Prop} [Decidable c] {m m' : StateM σ α}
    (hm : c → Keeps R m) (hm' : ¬ c → Keeps R m') : Keeps R (if c then m else m') := by
  split
  · next h => exact hm h
  · next h => exact hm' h

end Marotte
