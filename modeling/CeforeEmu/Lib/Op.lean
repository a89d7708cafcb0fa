import Mathlib.Logic.Relation

/-!
# Programs with a state and exceptions

`Op σ ε α` is a program that reads and writes a state, and returns or raises. As in Python,
raising keeps the state: what was done before the exception stays done. That is the whole
point of the transactional code modelled with it, whose exceptional exits must leave the
state in order too.

`Within R x` says that however `x` ends, its start and end states are related by `R`. For a
preorder `R` it is closed under sequencing, loops and branches, so a statement about every
exit of a long program is put together from its calls. `Ensures P x Q` is about returning only: a
loop keeps what its turns keep, and has what one turn brings about and none undoes.
-/

set_option autoImplicit false

namespace CeforeEmu
namespace Lib

/-- A stateful program. -/
def Op (σ ε α : Type) : Type := σ → Except ε α × σ

namespace Op

variable {σ ε α β : Type}

protected def pure (a : α) : Op σ ε α := fun s => (.ok a, s)

protected def bind (x : Op σ ε α) (f : α → Op σ ε β) : Op σ ε β := fun s =>
  match x s with
  | (.ok a, s') => f a s'
  | (.error err, s') => (.error err, s')

instance : Monad (Op σ ε) where
  pure := Op.pure
  bind := Op.bind

/-- The state. -/
def get : Op σ ε σ := fun s => (.ok s, s)

/-- Change the state. -/
def modify (f : σ → σ) : Op σ ε Unit := fun s => (.ok (), f s)

/-- Leave with an exception. -/
def raise (err : ε) : Op σ ε α := fun s => (.error err, s)

/-- A `for` loop; an exception in the body leaves it. -/
def forEach : List β → (β → Op σ ε Unit) → Op σ ε Unit
  | [], _ => Op.pure ()
  | b :: bs, f => Op.bind (f b) fun _ => forEach bs f

/-- `if c: ...` without an `else`. -/
def when (c : Bool) (x : Op σ ε Unit) : Op σ ε Unit := if c then x else Op.pure ()

/-- `if v is not None: ...`. -/
def whenSome (v : Option β) (f : β → Op σ ε Unit) : Op σ ε Unit :=
  match v with
  | some b => f b
  | none => Op.pure ()

theorem bind_of_ok {x : Op σ ε α} {f : α → Op σ ε β} {s s' : σ} {a : α} (h : x s = (.ok a, s')) :
    (x >>= f) s = f a s' := by
  show Op.bind x f s = f a s'
  simp only [Op.bind, h]

theorem bind_of_error {x : Op σ ε α} {f : α → Op σ ε β} {s s' : σ} {err : ε}
    (h : x s = (.error err, s')) : (x >>= f) s = (.error err, s') := by
  show Op.bind x f s = _
  simp only [Op.bind, h]

/-- A sequence of two that returns: both return. -/
theorem ok_of_bind {x : Op σ ε α} {f : α → Op σ ε β} {s t : σ} {b : β}
    (h : (x >>= f) s = (.ok b, t)) : ∃ a u, x s = (.ok a, u) ∧ f a u = (.ok b, t) := by
  cases hrun : x s with
  | mk result u =>
    cases result with
    | ok a =>
      rw [bind_of_ok hrun] at h
      exact ⟨a, u, rfl, h⟩
    | error err =>
      rw [bind_of_error hrun] at h
      cases h

@[simp] theorem pure_apply (a : α) (s : σ) : (pure a : Op σ ε α) s = (.ok a, s) := rfl

@[simp] theorem modify_apply (f : σ → σ) (s : σ) :
    (modify f : Op σ ε Unit) s = (.ok (), f s) := rfl

@[simp] theorem raise_apply (err : ε) (s : σ) : (raise err : Op σ ε α) s = (.error err, s) := rfl

/-- A loop is left at the first item whose body raises. -/
theorem forEach_error {f : β → Op σ ε Unit} {bs : List β} {s t : σ} {err : ε}
    (h : forEach bs f s = (.error err, t)) :
    ∃ pre b post u, bs = pre ++ b :: post ∧ forEach pre f s = (.ok (), u) ∧
      f b u = (.error err, t) := by
  induction bs generalizing s with
  | nil => exact absurd (congrArg Prod.fst h) (by simp [forEach, Op.pure])
  | cons b bs ih =>
    simp only [forEach, Op.bind] at h
    split at h
    · rename_i u hb
      obtain ⟨pre, b', post, u', hbs, hpre, hb'⟩ := ih h
      refine ⟨b :: pre, b', post, u', by rw [hbs]; rfl, ?_, hb'⟩
      simp only [forEach, Op.bind, hb, hpre]
    · rename_i err' u hb
      obtain ⟨rfl, rfl⟩ : err' = err ∧ u = t := by simpa using h
      exact ⟨[], b, bs, s, rfl, rfl, hb⟩

/-! ## Start and end of a program -/

section Within

variable {R : σ → σ → Prop}

/-- However `x` ends, it ends in a state related to the one it started in. -/
def Within (R : σ → σ → Prop) (x : Op σ ε α) : Prop := ∀ s, R s (x s).2

theorem Within.pure (hr : ∀ s, R s s) (a : α) : Within R (Pure.pure a : Op σ ε α) := fun s => hr s

theorem Within.raise (hr : ∀ s, R s s) (err : ε) : Within R (Op.raise err : Op σ ε α) :=
  fun s => hr s

theorem Within.bind (ht : ∀ s t u, R s t → R t u → R s u) {x : Op σ ε α} {f : α → Op σ ε β}
    (hx : Within R x) (hf : ∀ a, Within R (f a)) : Within R (x >>= f) := by
  intro s
  have hs := hx s
  cases h : x s with
  | mk result s' =>
    rw [h] at hs
    cases result with
    | ok a =>
      rw [bind_of_ok h]
      exact ht _ _ _ hs (hf a s')
    | error err =>
      rw [bind_of_error h]
      exact hs

theorem Within.forEach (hr : ∀ s, R s s) (ht : ∀ s t u, R s t → R t u → R s u)
    {f : β → Op σ ε Unit} (hf : ∀ b, Within R (f b)) :
    ∀ bs : List β, Within R (Op.forEach bs f)
  | [] => fun s => hr s
  | b :: bs => Within.bind ht (hf b) fun _ => Within.forEach hr ht hf bs

theorem Within.ite {c : Prop} [Decidable c] {x y : Op σ ε α} (hx : Within R x)
    (hy : Within R y) : Within R (if c then x else y) := by
  split
  · exact hx
  · exact hy

theorem Within.when (hr : ∀ s, R s s) {x : Op σ ε Unit} (hx : Within R x) (c : Bool) :
    Within R (Op.when c x) := by
  cases c with
  | true => exact hx
  | false => exact fun s => hr s

theorem Within.whenSome (hr : ∀ s, R s s) {f : β → Op σ ε Unit} (hf : ∀ b, Within R (f b))
    (v : Option β) : Within R (Op.whenSome v f) := by
  cases v with
  | some b => exact hf b
  | none => exact fun s => hr s

end Within

/-! ## Pre- and postconditions -/

section Ensures

variable {P Q R : σ → Prop}

/-- Started where `P` holds, `x` ends where `Q` holds, if it returns. -/
def Ensures (P : σ → Prop) (x : Op σ ε α) (Q : σ → Prop) : Prop :=
  ∀ ⦃s⦄, P s → ∀ ⦃a t⦄, x s = (.ok a, t) → Q t

theorem Ensures.pure (a : α) : Ensures P (Pure.pure a : Op σ ε α) P := by
  intro s hs a' t h
  cases h
  exact hs

theorem Ensures.weaken {P' : σ → Prop} {x : Op σ ε α} (h : Ensures P x Q) (hP : ∀ s, P' s → P s)
    {Q' : σ → Prop} (hQ : ∀ s, Q s → Q' s) : Ensures P' x Q' :=
  fun s hs _ t ht => hQ t (h (hP s hs) ht)

theorem Ensures.bind {x : Op σ ε α} {f : α → Op σ ε β} (hx : Ensures P x Q)
    (hf : ∀ a, Ensures Q (f a) R) : Ensures P (x >>= f) R := by
  intro s hs b t h
  obtain ⟨a, u, hrun, h⟩ := ok_of_bind h
  exact hf a (hx hs hrun) h

theorem Ensures.when {x : Op σ ε Unit} (hx : Ensures P x P) (c : Bool) : Ensures P (Op.when c x) P := by
  cases c with
  | true => exact hx
  | false => exact Ensures.pure ()

theorem Ensures.whenSome {f : β → Op σ ε Unit} (hf : ∀ b, Ensures P (f b) P) (v : Option β) :
    Ensures P (Op.whenSome v f) P := by
  cases v with
  | some b => exact hf b
  | none => exact Ensures.pure ()

/-- What every turn keeps the loop keeps. -/
theorem Ensures.forEach {f : β → Op σ ε Unit} {bs : List β} (hf : ∀ b ∈ bs, Ensures P (f b) P) :
    Ensures P (Op.forEach bs f) P := by
  induction bs with
  | nil => exact Ensures.pure ()
  | cons b bs ih =>
    obtain ⟨hb, hbs⟩ := List.forall_mem_cons.mp hf
    exact Ensures.bind hb fun _ => ih hbs

/-- What one turn brings about and no turn undoes holds after the loop. -/
theorem Ensures.forEach_mem {f : β → Op σ ε Unit} {bs : List β} {b : β} (hmem : b ∈ bs)
    (hb : Ensures P (f b) Q) (hP : ∀ c ∈ bs, Ensures P (f c) P) (hQ : ∀ c ∈ bs, Ensures Q (f c) Q) :
    Ensures P (Op.forEach bs f) Q := by
  induction bs with
  | nil => cases hmem
  | cons c bs ih =>
    obtain ⟨hPc, hPbs⟩ := List.forall_mem_cons.mp hP
    obtain ⟨-, hQbs⟩ := List.forall_mem_cons.mp hQ
    rcases List.mem_cons.mp hmem with rfl | hmem
    · exact Ensures.bind hb fun _ => Ensures.forEach hQbs
    · exact Ensures.bind hPc fun _ => ih hmem hPbs hQbs

end Ensures

end Op

end Lib
end CeforeEmu
