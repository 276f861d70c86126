import Mathlib.Data.Set.Insert

/-! # Exact ownership

A store in which every block of a set `N` is to be freed by exactly one owner.
`E b = some a` says that `b` holds the owning pointer to `a`; holders are
blocks themselves, or anything else that can answer for one. Ownership is
exact when these pointers are a bijection between the holders and `N`: no block
of `N` is without an owner, none has two, and no owning pointer leads outside
`N`. -/
namespace CustomKernel.Lib.Ownership
open Function

variable {α β : Type}

structure Exact (E : β → Option α) (N : Set α) : Prop where
  live : ∀ b a, E b = some a → a ∈ N
  owned : ∀ a ∈ N, ∃ b, E b = some a
  unique : ∀ b b' a, E b = some a → E b' = some a → b = b'

variable {E : β → Option α} {N : Set α} {a : α} {b : β}

theorem Exact.empty (hE : ∀ b, E b = none) (hN : ∀ a, a ∉ N) : Exact E N := by
  refine ⟨?_, fun a h => absurd h (hN a), ?_⟩
  · intro b a h
    rw [hE] at h; cases h
  · intro b b' a h
    rw [hE] at h; cases h

theorem Exact.congr {E' : β → Option α} {N' : Set α} (h : Exact E N) (hE : ∀ b, E' b = E b)
    (hN : ∀ a, a ∈ N' ↔ a ∈ N) : Exact E' N' := by
  have hE' : E' = E := funext hE
  have hN' : N' = N := Set.ext hN
  rw [hE', hN']
  exact h

theorem Exact.attach [DecidableEq β] (h : Exact E N) (hb : E b = none) (ha : a ∉ N) :
    Exact (update E b (some a)) (insert a N) := by
  refine ⟨?_, ?_, ?_⟩
  · intro c x hx
    by_cases hc : c = b
    · rw [hc, update_self] at hx
      exact .inl (Option.some.inj hx).symm
    · rw [update_of_ne hc] at hx
      exact .inr (h.live c x hx)
  · rintro x (rfl | hx)
    · exact ⟨b, update_self ..⟩
    · obtain ⟨c, hc⟩ := h.owned x hx
      refine ⟨c, ?_⟩
      rw [update_of_ne, hc]
      intro he
      rw [he, hb] at hc
      cases hc
  · intro c c' x hx hx'
    by_cases hc : c = b
    · by_cases hc' : c' = b
      · rw [hc, hc']
      · rw [hc, update_self] at hx
        rw [update_of_ne hc'] at hx'
        exact absurd (h.live c' x hx') (Option.some.inj hx ▸ ha)
    · rw [update_of_ne hc] at hx
      by_cases hc' : c' = b
      · rw [hc', update_self] at hx'
        exact absurd (h.live c x hx) (Option.some.inj hx' ▸ ha)
      · rw [update_of_ne hc'] at hx'
        exact h.unique c c' x hx hx'

theorem Exact.detach [DecidableEq β] (h : Exact E N) (hb : E b = some a) :
    Exact (update E b none) (N \ {a}) := by
  refine ⟨?_, ?_, ?_⟩
  · intro c x hx
    by_cases hc : c = b
    · rw [hc, update_self] at hx; cases hx
    · rw [update_of_ne hc] at hx
      refine ⟨h.live c x hx, ?_⟩
      intro he
      exact hc (h.unique c b a (he ▸ hx) hb)
  · rintro x ⟨hx, hxa⟩
    obtain ⟨c, hc⟩ := h.owned x hx
    refine ⟨c, ?_⟩
    rw [update_of_ne, hc]
    intro he
    rw [he, hb] at hc
    exact hxa (Option.some.inj hc).symm
  · intro c c' x hx hx'
    have hne : ∀ d, update E b none d = some x → E d = some x := by
      intro d hd
      by_cases he : d = b
      · rw [he, update_self] at hd; cases hd
      · rwa [update_of_ne he] at hd
    exact h.unique c c' x (hne c hx) (hne c' hx')

end CustomKernel.Lib.Ownership
