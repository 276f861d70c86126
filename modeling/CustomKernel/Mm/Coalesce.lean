import CustomKernel.Mm.ZoneCalls

/-! # The free blocks of a zone

Buddies are joined whenever both are free, so the free blocks are given by the free pages, whatever
led to them. The pools of the processors stand apart: a page in a pool is not free, and which pages
come to a pool depends on the order in which they are freed. -/
namespace CustomKernel.Mm.Coalesce
open Lib.Buddy Lib.Transition
open Mm.PageAlloc Mm.Zone Mm.ZoneCalls

/-- The page is in a block of the free lists. -/
def Free (σ : System) (j : Nat) : Prop :=
  ∃ p k, p ∈ σ.zone.lists (.area k) ∧ p ≤ j ∧ j < p + 2 ^ k

/-- The page is in a pool. -/
def Cached (σ : System) (j : Nat) : Prop := ∃ c, j ∈ σ.zone.lists (.cpu c)

def SameBlocks (σ σ' : System) : Prop :=
  ∀ k p, p ∈ σ.zone.lists (.area k) ↔ p ∈ σ'.zone.lists (.area k)

/-- The block that a call frees. -/
def freed : Op → Option (Nat × Nat)
  | .free _ _ page order => some (page, order)
  | _ => none

section
variable {z : PageAlloc.Zone} {σ σ' σ₁ σ₂ : System} {ord : Nat → Nat} {loc : Nat → Option Head}
  {os : List Op}

theorem run_coalesced (h : Run (Step z) (boot z) os σ) :
    (∃ ord loc, Good z σ ord loc) ∧ Coalesced σ.zone.lists := by
  refine h.invariant (I := fun σ => (∃ ord loc, Good z σ ord loc) ∧ Coalesced σ.zone.lists) ?_
    ⟨⟨_, _, boot_good z⟩, fun k _ p hp => by cases hp⟩
  rintro σ o σ' ⟨⟨ord, loc, hgood⟩, hc⟩ hstep
  obtain ⟨σ'', ord', loc', heq, hgood', hcoalesced⟩ := step_good hgood hstep.1
  rw [hstep.2] at heq
  cases heq
  exact ⟨⟨ord', loc', hgood'⟩, hcoalesced hc⟩

/-! ## Blocks and pages -/

theorem merged (hgood : Good z σ ord loc) (hc : Coalesced σ.zone.lists) :
    Merged maxOrder fun p k => p ∈ σ.zone.lists (.area k) where
  aligned p k hp := ⟨(hgood.aligned hp).1, (hgood.aligned hp).2.1⟩
  disjoint p k p' k' j hp hp' hj hj' :=
    hgood.blocks.free_unique hgood.filed hp hp' ((mem_block_iff (hgood.aligned hp).2.1).mp hj)
      ((mem_block_iff (hgood.aligned hp').2.1).mp hj')
  joined p k hp hk := hc k (by omega) p hp

theorem covers_iff (hgood : Good z σ ord loc) (j : Nat) :
    Covers (fun p k => p ∈ σ.zone.lists (.area k)) j ↔ Free σ j := by
  refine exists_congr fun p => exists_congr fun k => and_congr_right fun hp => ?_
  exact mem_block_iff (hgood.aligned hp).2.1

/-- The free pages say which blocks are free. -/
theorem sameBlocks_of_free {ord' : Nat → Nat} {loc' : Nat → Option Head}
    (hgood : Good z σ ord loc) (hc : Coalesced σ.zone.lists) (hgood' : Good z σ' ord' loc')
    (hc' : Coalesced σ'.zone.lists) (hfree : ∀ j, Free σ j ↔ Free σ' j) : SameBlocks σ σ' := by
  intro k p
  refine (merged hgood hc).unique (merged hgood' hc') (fun j => ?_) p k
  rw [covers_iff hgood, covers_iff hgood', hfree]

/-- A page of the zone is free, in a pool, or in a block that is held. -/
theorem free_iff (hgood : Good z σ ord loc) (j : Nat) :
    Free σ j ↔ j < z.size ∧ ¬ Cached σ j ∧
      ∀ p k, σ.held p = some k → ¬ (p ≤ j ∧ j < p + 2 ^ k) := by
  constructor
  · rintro ⟨p, k, hp, hj⟩
    have hmem : (Block.free k p).Mem σ ∧ (Block.free k p).Has j := ⟨hp, hj⟩
    have hsize := hgood.inside hmem.1 hmem.2
    have hunique (b : Block) (hb : b.Mem σ ∧ b.Has j) : Block.free k p = b :=
      (hgood.partition hsize).unique hmem hb
    refine ⟨hsize, ?_, ?_⟩
    · rintro ⟨c, hcached⟩
      cases hunique (.cached c j) ⟨hcached, rfl⟩
    · intro p' k' hheld hin
      cases hunique (.allocated k' p') ⟨hheld, hin⟩
  · rintro ⟨hsize, hpool, hheld⟩
    obtain ⟨b, ⟨hmem, hhas⟩, -⟩ := hgood.partition hsize
    cases b with
    | free k p => exact ⟨p, k, hmem, hhas⟩
    | cached c p => exact absurd ⟨c, hhas ▸ hmem⟩ hpool
    | allocated k p => exact absurd hhas (hheld p k hmem)

/-! ## Freeing in any order -/

theorem free_held {cpu : Nat} {high : Bool} {page order : Nat}
    (h : (Op.free cpu high page order).exec z σ = .ok σ') :
    σ'.held = if (σ.zone.page page).reserved then σ.held else Function.update σ.held page none := by
  rw [Op.exec] at h
  cases hfree : freePagesOk z cpu high page order σ.zone with
  | error e =>
    rw [hfree] at h
    cases h
  | ok s =>
    rw [hfree] at h
    cases h
    rfl

/-- What is held after some blocks were freed. A reserved page stays as it is. -/
theorem frees_held {fs : List Op} (hgood : Good z σ ord loc) (h : Run (Step z) σ fs σ')
    (hfrees : ∀ o ∈ fs, (freed o).isSome) (p k : Nat) :
    σ'.held p = some k ↔ σ.held p = some k ∧
      ((σ.zone.page p).reserved = true ∨ ∀ k', some (p, k') ∉ fs.map freed) := by
  induction fs generalizing σ ord loc with
  | nil =>
    cases h
    simp
  | cons o fs ih =>
    cases h with
    | cons hstep hrest =>
      rename_i σ₁
      cases o with
      | rmqueue => cases hfrees _ List.mem_cons_self
      | use => cases hfrees _ List.mem_cons_self
      | free cpu high page order =>
        obtain ⟨σ₂, ord', loc', heq, hgood', -, hreserved⟩ := free_good hgood hstep.1
        obtain rfl : σ₁ = σ₂ := Except.ok.inj (hstep.2.symm.trans heq)
        rw [ih hgood' hrest fun o ho => hfrees o (List.mem_cons_of_mem _ ho), hreserved,
          free_held heq]
        simp only [List.map_cons, freed, List.mem_cons, not_or, Option.some.injEq, Prod.mk.injEq]
        cases hres : (σ.zone.page page).reserved with
        | true =>
          refine and_congr_right fun _ => ?_
          rcases eq_or_ne p page with rfl | hne
          · simp [hres]
          · simp [hne]
        | false =>
          rw [if_neg (by decide)]
          rcases eq_or_ne p page with rfl | hne
          · have hmem : ¬ ∀ k', ¬ (p = p ∧ k' = order) ∧ some (p, k') ∉ fs.map freed :=
              fun hall => (hall order).1 ⟨rfl, rfl⟩
            rw [Function.update_self, hres, iff_false_intro hmem]
            simp
          · simp [hne]

end

/-! ## Runs -/

/-- No two buddies are free unless they are of the highest order, so the free pages say which blocks
are free. Blocks that are freed in two orders leave the same free blocks when the same pages are in
the pools. -/
theorem free_blocks_determined (z : PageAlloc.Zone) :
    (∀ os σ, Run (Step z) (boot z) os σ → ∀ k < maxOrder - 1, ∀ p ∈ σ.zone.lists (.area k),
      p ^^^ 2 ^ k ∉ σ.zone.lists (.area k)) ∧
    (∀ os₁ σ₁ os₂ σ₂, Run (Step z) (boot z) os₁ σ₁ → Run (Step z) (boot z) os₂ σ₂ →
      (∀ j, Free σ₁ j ↔ Free σ₂ j) → SameBlocks σ₁ σ₂) ∧
    ∀ os σ fs₁ σ₁ fs₂ σ₂, Run (Step z) (boot z) os σ → Run (Step z) σ fs₁ σ₁ →
      Run (Step z) σ fs₂ σ₂ → (∀ o ∈ fs₁ ++ fs₂, (freed o).isSome) →
      (fs₁.map freed).Perm (fs₂.map freed) → (∀ j, Cached σ₁ j ↔ Cached σ₂ j) →
      SameBlocks σ₁ σ₂ := by
  refine ⟨fun os σ h => (run_coalesced h).2, ?_, ?_⟩
  · intro os₁ σ₁ os₂ σ₂ h₁ h₂ hfree
    obtain ⟨⟨ord₁, loc₁, hgood₁⟩, hc₁⟩ := run_coalesced h₁
    obtain ⟨⟨ord₂, loc₂, hgood₂⟩, hc₂⟩ := run_coalesced h₂
    exact sameBlocks_of_free hgood₁ hc₁ hgood₂ hc₂ hfree
  · intro os σ fs₁ σ₁ fs₂ σ₂ h h₁ h₂ hfrees hperm hcached
    obtain ⟨⟨ord, loc, hgood⟩, -⟩ := run_coalesced h
    obtain ⟨⟨ord₁, loc₁, hgood₁⟩, hc₁⟩ := run_coalesced (h.append h₁)
    obtain ⟨⟨ord₂, loc₂, hgood₂⟩, hc₂⟩ := run_coalesced (h.append h₂)
    refine sameBlocks_of_free hgood₁ hc₁ hgood₂ hc₂ fun j => ?_
    have hheld (p k : Nat) : σ₁.held p = some k ↔ σ₂.held p = some k := by
      rw [frees_held hgood h₁ fun o ho => hfrees o (List.mem_append_left _ ho),
        frees_held hgood h₂ fun o ho => hfrees o (List.mem_append_right _ ho)]
      simp only [hperm.mem_iff]
    rw [free_iff hgood₁, free_iff hgood₂, hcached]
    simp only [hheld]

/-- Boot makes three of the pages free to use. -/
def setUp (z : PageAlloc.Zone) : List Op :=
  (List.range 3).map fun p => .use p 0 p { (boot z).zone.page p with reserved := false }

def frees (pages : List Nat) : List Op := pages.map fun p => .free 0 true p 0

def after (z : PageAlloc.Zone) (os : List Op) : System :=
  os.foldl (fun σ o => o.result z σ) (boot z)

/-- Without pools, two orders lead to the same blocks. -/
theorem free_blocks_determined_small :
    (after smallZone (setUp smallZone ++ frees [0, 1, 2])).zone.lists (.area 1) = [0] ∧
      SameBlocks (after smallZone (setUp smallZone ++ frees [0, 1, 2]))
        (after smallZone (setUp smallZone ++ frees [2, 0, 1])) := by
  have hsetUp := run_after smallZone (setUp smallZone) (boot smallZone) (by decide +kernel)
  have hfrees (pages : List Nat)
      (h : Runs smallZone (after smallZone (setUp smallZone)) (frees pages)) :
      Run (Step smallZone) (after smallZone (setUp smallZone)) (frees pages)
        (after smallZone (setUp smallZone ++ frees pages)) := by
    have hrun := run_after _ _ _ h
    rwa [after, ← List.foldl_append] at hrun
  refine ⟨by decide +kernel, (free_blocks_determined smallZone).2.2 _ _ _ _ _ _ hsetUp
    (hfrees [0, 1, 2] (by decide +kernel)) (hfrees [2, 0, 1] (by decide +kernel)) (by decide)
    (by decide) fun j => exists_congr fun c => ?_⟩
  rfl

/-- The same zone with a pool for one page. -/
def poolZone : PageAlloc.Zone := { smallZone with maxNrPages := 1 }

/-- The first page that is freed goes to the pool, and its buddy is not joined with it. -/
theorem order_of_frees_matters :
    ∃ σ σ₁ σ₂, Run (Step poolZone) (boot poolZone) (setUp poolZone) σ ∧
      Run (Step poolZone) σ (frees [0, 1, 2]) σ₁ ∧ Run (Step poolZone) σ (frees [2, 0, 1]) σ₂ ∧
      σ₁.zone.lists (.area 0) = [2, 1] ∧ σ₁.zone.lists (.area 1) = [] ∧
      σ₂.zone.lists (.area 0) = [] ∧ σ₂.zone.lists (.area 1) = [0] :=
  ⟨after poolZone (setUp poolZone), _, _, run_after poolZone _ _ (by decide +kernel),
    run_after poolZone _ _ (by decide +kernel), run_after poolZone _ _ (by decide +kernel),
    by decide +kernel, by decide +kernel, by decide +kernel, by decide +kernel⟩

end CustomKernel.Mm.Coalesce
