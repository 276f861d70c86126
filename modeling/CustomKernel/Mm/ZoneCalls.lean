import CustomKernel.Mm.Zone

/-! # The calls on a zone

`__free_pages_ok` and `rmqueue` keep the blocks of a zone, its bitmaps and its counters, and
do not come to a `BUG()`, however they are called one after the other. -/
namespace CustomKernel.Mm.ZoneCalls
open Lib Lib.Filing Lib.Buddy Lib.Transition Function
open Mm.PageAlloc Mm.Zone

/-! ## Invariant -/

/-- A page that is in no held block is on no list of the page cache. -/
def Off (z : PageAlloc.Zone) (σ : System) : Prop :=
  ∀ i < z.size, (∀ p k, σ.held p = some k → ¬ (p ≤ i ∧ i < p + 2 ^ k)) →
    (σ.zone.page i).onLruList = false

structure Good (z : PageAlloc.Zone) (σ : System) (ord : Nat → Nat) (loc : Nat → Option Head) :
    Prop where
  blocks : Blocks z.size σ.held ord loc
  filed : Filed σ.zone.lists loc
  bits : Bits σ.zone.map loc
  free : σ.zone.freePages = total σ.zone.lists
  pools : ∀ c, σ.zone.nrPages c = (σ.zone.lists (.cpu c)).length
  off : Off z σ

theorem boot_good (z : PageAlloc.Zone) : Good z (boot z) (fun _ => 0) (fun _ => none) where
  blocks :=
    { tiling := tiling_pages z.size
      small := fun _ _ => by decide
      filed := fun p h hp => by cases hp
      taken := fun p k hp => by
        simp only [boot, Option.ite_none_right_eq_some, Option.some.injEq] at hp
        exact ⟨hp.1, hp.2, Nat.one_dvd p, rfl⟩
      cover := fun p hp _ _ => if_pos hp }
  filed := filed_empty
  bits := fun k _ q => rfl
  free := by simp [boot, total]
  pools := fun c => rfl
  off := fun i _ _ => rfl

section
variable {z : PageAlloc.Zone} {σ : System} {ord : Nat → Nat} {loc : Nat → Option Head}
  {page order k cpu p left : Nat} {s : State} {high : Bool}

/-! ## Freeing -/

theorem offLru_reserved (p : Page) : p.offLru.reserved = p.reserved := by
  unfold Page.offLru Page.lruCacheDel
  split_ifs <;> rfl

theorem mask_eq (horder : order < maxOrder) :
    (2 ^ 32 - 1) * 2 ^ order % 2 ^ 32 = 2 ^ 32 - 2 ^ order := by
  have hpos := Nat.two_pow_pos order
  have hlt : 2 ^ order < 2 ^ 10 := Nat.pow_lt_pow_right (by decide) horder
  omega

theorem aligned_bits (horder : order < maxOrder) (hd : 2 ^ order ∣ page) :
    page &&& (2 ^ 32 - 1 - (2 ^ 32 - 2 ^ order)) = 0 := by
  have hlt : 2 ^ order < 2 ^ 10 := Nat.pow_lt_pow_right (by decide) horder
  rw [show 2 ^ 32 - 1 - (2 ^ 32 - 2 ^ order) = 2 ^ order - 1 by omega,
    Nat.and_two_pow_sub_one_eq_mod]
  exact Nat.mod_eq_zero_of_dvd hd

/-- A held block is freed: it goes to a pool, or up to the order at which its buddy is in
use. -/
theorem freeBlock_ok {H : Nat → Option Nat} (h : InHand z s H ord loc page order)
    (hfree : s.freePages = total s.lists)
    (hpools : ∀ c, s.nrPages c = (s.lists (.cpu c)).length) (cpu : Nat) (high : Bool) :
    ∃ s' ord' loc', freeBlock z cpu high page order s = .ok s' ∧ s'.page = s.page ∧
      Blocks z.size H ord' loc' ∧ Filed s'.lists loc' ∧ Bits s'.map loc' ∧
      s'.freePages = total s'.lists ∧ (∀ c, s'.nrPages c = (s'.lists (.cpu c)).length) ∧
      (Coalesced s.lists → Coalesced s'.lists) := by
  obtain ⟨hp, horder, hd, hloc⟩ := h.facts
  unfold freeBlock
  simp only [mask_eq horder, aligned_bits horder hd, ne_eq, not_true_eq_false, if_false]
  by_cases hpool : order = 0 ∧ s.nrPages cpu < z.maxNrPages ∧ high = true
  · rw [if_pos hpool]
    refine ⟨_, _, _, rfl, rfl, h.blocks.release (h := .cpu cpu) h.other hpool.1.symm,
      h.filed.push hloc (.cpu cpu), h.bits.same (by simp [hloc]) (by simp), ?_, ?_,
      fun hc => hc.push_other (by simp) page⟩
    · exact hfree.trans (total_push_cpu s.lists cpu page).symm
    · intro c
      show update s.nrPages cpu (s.nrPages cpu + 1) c =
        (Filing.push s.lists (.cpu cpu) page (.cpu c)).length
      rw [length_push]
      rcases eq_or_ne c cpu with rfl | hne
      · simp [hpools]
      · simp [hne, hpools]
  · -- there is room for the block in the count of free pages
    have hroom : total s.lists + 2 ^ order ≤ z.size := by
      have hle := total_le (h.blocks.release h.other rfl)
        (h.filed.push hloc (.area order))
      rwa [total_push s.lists horder] at hle
    have hword := z.word
    have hcount : (s.freePages + 2 ^ 32 - (2 ^ 32 - 2 ^ order)) % 2 ^ 32 =
        total s.lists + 2 ^ order := by
      omega
    obtain ⟨k', p', s', ord', loc', heq, hblocks, hH, hfiled, hbits, hT, hframe, hcoalesced⟩ :=
      mergeUp_ok (s := { s with freePages := total s.lists + 2 ^ order })
        ⟨h.blocks, h.other, h.filed, h.bits⟩ (show order + (maxOrder - order) = maxOrder by omega)
        rfl
    obtain ⟨hp', hk', hd', hloc'⟩ := hblocks.taken p' k' (update_self ..)
    have hk'' := hblocks.small p' hp'
    rw [hk'] at hk''
    rw [if_neg hpool, hcount, heq]
    refine ⟨s'.addHead (.area k') p', _, _, rfl, hframe.page,
      hblocks.release hH rfl, hfiled.push hloc' (.area k'), hbits, ?_, ?_, hcoalesced⟩
    · show s'.freePages = total (Filing.push s'.lists (.area k') p')
      rw [total_push s'.lists hk'', hT]
      exact hframe.freePages
    · intro c
      show s'.nrPages c = (Filing.push s'.lists (.area k') p' (.cpu c)).length
      rw [length_push, if_neg (by simp), hframe.nrPages, hframe.pools]
      exact hpools c

theorem Good.setPage (h : Good z σ ord loc) (hheld : σ.held p = some k)
    (hin : p ≤ page ∧ page < p + 2 ^ k) (pg : Page) :
    Good z ⟨σ.zone.setPage page pg, σ.held⟩ ord loc := by
  refine ⟨h.blocks, h.filed, h.bits, h.free, h.pools, ?_⟩
  intro i hi hnone
  have hne : i ≠ page := fun heq => hnone p k hheld (heq ▸ hin)
  show (update σ.zone.page page pg i).onLruList = false
  rw [update_of_ne hne]
  exact h.off i hi hnone

theorem two_pow_self (p k : Nat) : p ≤ p ∧ p < p + 2 ^ k :=
  ⟨Nat.le_refl p, Nat.lt_add_of_pos_right (Nat.two_pow_pos k)⟩

theorem free_good (h : Good z σ ord loc)
    (ha : (Op.free cpu high page order).Allowed σ) :
    ∃ σ' ord' loc', (Op.free cpu high page order).exec z σ = .ok σ' ∧ Good z σ' ord' loc' ∧
      (Coalesced σ.zone.lists → Coalesced σ'.zone.lists) ∧
      ∀ j, (σ'.zone.page j).reserved = (σ.zone.page j).reserved := by
  obtain ⟨hheld, hstate⟩ := ha
  have hset {p : Page} (hp : p.reserved = (σ.zone.page page).reserved) (j : Nat) :
      ((σ.zone.setPage page p).page j).reserved = (σ.zone.page j).reserved := by
    rcases eq_or_ne j page with rfl | hne
    · simpa [State.setPage] using hp
    · simp [State.setPage, hne]
  cases hres : (σ.zone.page page).reserved with
  | true =>
    refine ⟨_, ord, loc, ?_, h.setPage hheld (two_pow_self page order) (σ.zone.page page).offLru, id,
      hset (offLru_reserved _)⟩
    rw [Op.exec, freePagesOk, offLru_reserved, hres]
    rfl
  | false =>
    rw [hres] at hstate
    obtain ⟨huse, hoff⟩ := hstate.resolve_left Bool.false_ne_true
    have hpage := (h.blocks.taken page order hheld).1
    have hvalid : z.validPage page = true :=
      decide_eq_true (Nat.lt_of_lt_of_le (Nat.add_lt_add_left hpage _) z.mapped)
    have hsame : update (update σ.held page none) page (some order) = σ.held := by
      rw [update_idem, ← hheld, update_eq_self]
    have hhand : InHand z
        (σ.zone.setPage page (σ.zone.page page).offLru.unmark)
        (update σ.held page none) ord loc page order :=
      ⟨hsame.symm ▸ h.blocks, update_self .., h.filed, h.bits⟩
    obtain ⟨s', ord', loc', heq, hpg, hblocks, hfiled, hbits, hfree, hpools, hcoalesced⟩ :=
      freeBlock_ok hhand h.free h.pools cpu high
    refine ⟨⟨s', update σ.held page none⟩, ord', loc', ?_, ⟨hblocks, hfiled, hbits, hfree,
      hpools, ?_⟩, hcoalesced, fun j => ?_⟩
    · rw [Op.exec, freePagesOk, offLru_reserved, hres, huse, hvalid]
      simp only [Bool.not_true, Bool.or_self, Bool.false_eq_true, if_false, heq]
      rfl
    · intro i hi hnone
      rw [hpg]
      rcases eq_or_ne i page with rfl | hne
      · have hlist : (σ.zone.page i).offLru.onLruList = false := by
          simp only [Page.inUse, Bool.or_eq_false_iff] at huse
          exact huse.1.2
        simp only [State.setPage, update_self]
        exact hlist
      · simp only [State.setPage, update_of_ne hne]
        by_cases hin : page ≤ i ∧ i < page + 2 ^ order
        · exact hoff i hin.2 (by omega)
        · refine h.off i hi fun p k hp => ?_
          rcases eq_or_ne p page with rfl | hpne
          · rw [hheld] at hp
            cases hp
            exact hin
          · exact hnone p k (by simpa [hpne] using hp)
    · rw [hpg]
      exact hset (p := (σ.zone.page page).offLru.unmark) (offLru_reserved _) j

/-! ## Allocating -/

theorem Good.not_held (h : Good z σ ord loc) {i : Nat} (hp : loc p = some (.area k))
    (hi : p ≤ i ∧ i < p + 2 ^ k) (p' k' : Nat) (hheld : σ.held p' = some k') :
    ¬ (p' ≤ i ∧ i < p' + 2 ^ k') := by
  intro hi'
  obtain ⟨hs, ho, hd⟩ := h.blocks.filed p _ hp
  obtain ⟨hs', ho', hd', hloc'⟩ := h.blocks.taken p' k' hheld
  obtain rfl : ord p = k := ho
  subst ho'
  have heq := h.blocks.tiling.head_unique hs hs' hd hd' ((mem_block_iff hd).mpr hi)
    ((mem_block_iff hd').mpr hi')
  rw [← heq, hp] at hloc'
  cases hloc'

theorem take_ok {H : Nat → Option Nat} (hb : Blocks z.size H ord loc)
    (hf : Filed s.lists loc) (hbits : Bits s.map loc) (hp : loc p = some (.area k)) :
    ∃ s' ord', takeOff z p k s = .ok s' ∧
      InHand z s' H ord' (update loc p none) p k ∧ s'.lists = (s.del p).lists ∧
      Frame s s' := by
  obtain ⟨hs, ho, hd⟩ := hb.filed p _ hp
  obtain rfl : ord p = k := ho
  obtain ⟨hH, hblocks⟩ := hb.claim hp
  by_cases htop : ord p = maxOrder - 1
  · refine ⟨s.del p, _, if_neg (not_not.mpr htop), ⟨hblocks, hH, hf.remove p, ?_⟩, rfl,
      frame_remove hf hp s.map⟩
    refine hbits.same (fun k' hk' => ?_) (by simp)
    rw [hp, htop]
    simp only [ne_eq, Option.some.injEq, Head.area.injEq]
    omega
  · have hsmall := hb.small p hs
    refine ⟨State.del { s with map := toggle s.map (ord p) (p / 2 ^ (1 + ord p)) } p, _, ?_,
      ⟨hblocks, hH, hf.remove p, hbits.flip hd (.inr ⟨hp, rfl⟩)⟩, rfl, frame_remove hf hp _⟩
    rw [takeOff, if_pos htop, markUsed_eq hs (by omega)]
    rfl

theorem rmqueueArea_empty (hk : maxOrder - (left + 1) = k)
    (hempty : s.lists (.area k) = []) :
    rmqueueArea z order (left + 1) s = rmqueueArea z order left s := by
  rw [rmqueueArea]
  simp only [hk, hempty]

theorem rmqueueArea_take {s₁ s₂ : State} {p' : Nat} {ps : List Nat}
    (hk : maxOrder - (left + 1) = k) (hlist : s.lists (.area k) = p :: ps) (hp : p < z.size)
    (htake : takeOff z p k s = .ok s₁)
    (hexpand : expand z order k p
      { s₁ with freePages := (s₁.freePages + 2 ^ 32 - 2 ^ order) % 2 ^ 32 } = .ok (p', s₂))
    (hp' : p' < z.size) (hoff : (s₂.page p').onLruList = false) :
    rmqueueArea z order (left + 1) s = .ok (some p', s₂) := by
  rw [rmqueueArea]
  simp only [hk, hlist, badRange_eq z hp, htake]
  show (do
    let r ← expand z order k p
      { s₁ with freePages := (s₁.freePages + 2 ^ 32 - 2 ^ order) % 2 ^ 32 }
    if (z.badRange r.1 || (r.2.page r.1).onLruList) = true then throw Fault.bug
    return (some r.1, r.2)) = Except.ok (some p', s₂)
  rw [hexpand]
  show (if (z.badRange p' || (s₂.page p').onLruList) = true then _ else _) = _
  rw [badRange_eq z hp', hoff]
  rfl

/-- `rmqueue` finds no block, or leaves one of the order in hand. -/
theorem rmqueueArea_ok (h : Good z σ ord loc) (hleft : left + order ≤ maxOrder) :
    rmqueueArea z order left σ.zone = .ok (none, σ.zone) ∨
      ∃ p s ord' loc', rmqueueArea z order left σ.zone = .ok (some p, s) ∧
        InHand z s σ.held ord' loc' p order ∧ s.freePages = total s.lists ∧
        s.page = σ.zone.page ∧ (∀ c, s.nrPages c = (s.lists (.cpu c)).length) ∧
        (Coalesced σ.zone.lists → Coalesced s.lists) := by
  induction left with
  | zero => exact .inl rfl
  | succ left ih =>
    have hk : maxOrder - (left + 1) < maxOrder := by omega
    have hle : order ≤ maxOrder - (left + 1) := by omega
    generalize hkeq : maxOrder - (left + 1) = k at hk hle
    cases hlist : σ.zone.lists (.area k) with
    | nil =>
      rw [rmqueueArea_empty hkeq hlist]
      exact ih (by omega)
    | cons p ps =>
      have hloc : loc p = some (.area k) := (h.filed.mem p _).mp (hlist ▸ List.mem_cons_self)
      have hs := (h.blocks.filed p _ hloc).1
      have hcount := total_remove h.filed hk hloc
      have hmax := total_le h.blocks h.filed
      obtain ⟨s₁, ord₁, htake, hhand, hlists, hframe⟩ := take_ok h.blocks h.filed h.bits hloc
      have hpow : 2 ^ order ≤ 2 ^ k := Nat.pow_le_pow_right (by decide) hle
      have hfree : (s₁.freePages + 2 ^ 32 - 2 ^ order) % 2 ^ 32 = total σ.zone.lists - 2 ^ order := by
        have hword := z.word
        have hpos := Nat.two_pow_pos order
        rw [hframe.freePages, h.free]
        omega
      obtain ⟨p', s₂, ord₂, loc₂, hexpand, hhand₂, hge, hlt, hT, hframe₂, hcoalesced⟩ :=
        expand_ok (s := { s₁ with freePages := total σ.zone.lists - 2 ^ order })
          ⟨hhand.blocks, hhand.other, hhand.filed, hhand.bits⟩ hle rfl
      have hoff : (s₂.page p').onLruList = false := by
        rw [hframe₂.page]
        rw [hframe.page]
        refine h.off p' ?_ (h.not_held hloc ⟨hge, hlt⟩)
        exact hhand₂.facts.1
      refine .inr ⟨p', s₂, ord₂, loc₂, ?_, hhand₂, ?_, hframe₂.page.trans hframe.page, ?_,
        fun hc => hcoalesced ?_⟩
      · exact rmqueueArea_take hkeq hlist hs htake (by rw [hfree]; exact hexpand) hhand₂.facts.1 hoff
      · rw [hframe₂.freePages]
        simp only [hlists] at hT ⊢
        simp only [State.del] at hT
        omega
      · intro c
        rw [hframe₂.nrPages, hframe₂.pools]
        rw [hframe.nrPages, hframe.pools]
        exact h.pools c
      · rw [hlists]
        exact hc.remove p

theorem rmqueue_good (h : Good z σ ord loc) {memalloc : Bool}
    (ha : (Op.rmqueue cpu memalloc order).Allowed σ) :
    ∃ σ' ord' loc', (Op.rmqueue cpu memalloc order).exec z σ = .ok σ' ∧ Good z σ' ord' loc' ∧
      (Coalesced σ.zone.lists → Coalesced σ'.zone.lists) := by
  have hgrow : ∀ {s : State} {p k : Nat}, s.page = σ.zone.page → σ.held p = none →
      Off z ⟨s, update σ.held p (some k)⟩ := by
    intro s p k hpage hnone i hi hout
    rw [hpage]
    refine h.off i hi fun p' k' hp' => hout p' k' ?_
    have hne : p' ≠ p := by
      rintro rfl
      rw [hnone] at hp'
      cases hp'
    rw [← hp']
    exact update_of_ne hne _ _
  by_cases hpool : order = 0 ∧ σ.zone.nrPages cpu > (if memalloc then 0 else z.maxNrPages / 8)
  · obtain ⟨rfl, hmany⟩ := hpool
    cases hlist : σ.zone.lists (.cpu cpu) with
    | nil =>
      rw [h.pools, hlist] at hmany
      exact absurd hmany (Nat.not_lt_zero _)
    | cons p ps =>
      have hloc : loc p = some (.cpu cpu) := (h.filed.mem p _).mp (hlist ▸ List.mem_cons_self)
      obtain ⟨hH, hblocks⟩ := h.blocks.claim hloc
      have hcall : PageAlloc.rmqueue z cpu memalloc 0 σ.zone =
          .ok (some p, { σ.zone.del p with
            nrPages := update σ.zone.nrPages cpu (σ.zone.nrPages cpu - 1) }) := by
        rw [PageAlloc.rmqueue, if_pos ⟨rfl, hmany⟩, hlist]
      refine ⟨⟨{ σ.zone.del p with
        nrPages := update σ.zone.nrPages cpu (σ.zone.nrPages cpu - 1) },
        update σ.held p (some 0)⟩, _, _, ?_, ⟨hblocks, h.filed.remove p,
        h.bits.same (by simp [hloc]) (by simp), ?_, ?_, hgrow rfl hH⟩, fun hc => hc.remove p⟩
      · rw [Op.exec, hcall]
        rfl
      · exact h.free.trans (total_remove_cpu h.filed hloc).symm
      · intro c
        have hlen := h.filed.length_remove hloc (.cpu c)
        rw [← h.pools] at hlen
        show update σ.zone.nrPages cpu (σ.zone.nrPages cpu - 1) c =
          (Filing.remove σ.zone.lists p (.cpu c)).length
        rcases eq_or_ne c cpu with rfl | hne
        · rw [update_self, hlen, if_pos rfl, Nat.add_sub_cancel]
        · rw [update_of_ne hne, hlen, if_neg (by simpa using hne), Nat.add_zero]
  · have hcall : PageAlloc.rmqueue z cpu memalloc order σ.zone =
        rmqueueArea z order (maxOrder - order) σ.zone := if_neg hpool
    rcases rmqueueArea_ok h (show maxOrder - order + order ≤ maxOrder from
        (Nat.sub_add_cancel (Nat.le_of_lt ha)).le) with
      hnone | ⟨p, s, ord', loc', hsome, hhand, hfree, hpage, hpools, hcoalesced⟩
    · refine ⟨σ, ord, loc, ?_, h, id⟩
      rw [Op.exec, hcall, hnone]
      rfl
    · refine ⟨⟨s, update σ.held p (some order)⟩, ord', loc', ?_, ⟨hhand.blocks, hhand.filed,
        hhand.bits, hfree, hpools, hgrow hpage hhand.other⟩, hcoalesced⟩
      rw [Op.exec, hcall, hsome]
      rfl

/-! ## Runs -/

theorem step_good (h : Good z σ ord loc) {o : Op} (ha : o.Allowed σ) :
    ∃ σ' ord' loc', o.exec z σ = .ok σ' ∧ Good z σ' ord' loc' ∧
      (Coalesced σ.zone.lists → Coalesced σ'.zone.lists) := by
  cases o with
  | free cpu high page order =>
    obtain ⟨σ', ord', loc', heq, hgood, hcoalesced, -⟩ := free_good h ha
    exact ⟨σ', ord', loc', heq, hgood, hcoalesced⟩
  | rmqueue cpu memalloc order => exact rmqueue_good h ha
  | use block order page p => exact ⟨_, ord, loc, rfl, h.setPage ha.1 ha.2 p, id⟩

theorem run_good {os : List Op} (h : Run (Step z) (boot z) os σ) : ∃ ord loc, Good z σ ord loc := by
  refine h.invariant (I := fun σ => ∃ ord loc, Good z σ ord loc) ?_ ⟨_, _, boot_good z⟩
  intro σ o σ' hgood hstep
  obtain ⟨ord, loc, hgood⟩ := hgood
  obtain ⟨σ'', ord', loc', heq, hgood', -⟩ := step_good hgood hstep.1
  rw [hstep.2] at heq
  cases heq
  exact ⟨ord', loc', hgood'⟩

/-- What the pages of a zone belong to. -/
inductive Block where
  | free (order page : Nat)
  | cached (cpu page : Nat)
  | allocated (order page : Nat)

def Block.Mem (σ : System) : Block → Prop
  | .free k p => p ∈ σ.zone.lists (.area k)
  | .cached c p => p ∈ σ.zone.lists (.cpu c)
  | .allocated k p => σ.held p = some k

def Block.Has (i : Nat) : Block → Prop
  | .free k p | .allocated k p => p ≤ i ∧ i < p + 2 ^ k
  | .cached _ p => i = p

structure Sound (z : PageAlloc.Zone) (σ : System) : Prop where
  aligned : ∀ k p, p ∈ σ.zone.lists (.area k) → k < maxOrder ∧ 2 ^ k ∣ p ∧ p + 2 ^ k ≤ z.size
  nodup : ∀ k, (σ.zone.lists (.area k)).Nodup
  disjoint : ∀ k p k' p', p ∈ σ.zone.lists (.area k) → p' ∈ σ.zone.lists (.area k') →
    (k, p) ≠ (k', p') → p + 2 ^ k ≤ p' ∨ p' + 2 ^ k' ≤ p
  bitmap : ∀ k < maxOrder - 1, ∀ q, σ.zone.map k q = true ↔
    Xor (2 * q * 2 ^ k ∈ σ.zone.lists (.area k)) ((2 * q + 1) * 2 ^ k ∈ σ.zone.lists (.area k))
  count : σ.zone.freePages = ∑ k ∈ Finset.range maxOrder, 2 ^ k * (σ.zone.lists (.area k)).length
  partition : ∀ i < z.size, ∃! b : Block, b.Mem σ ∧ b.Has i
  inside : ∀ (b : Block) (i : Nat), b.Mem σ → b.Has i → i < z.size

section
variable (h : Good z σ ord loc) {k i p : Nat} {b : Block}
include h

theorem Good.aligned (hp : p ∈ σ.zone.lists (.area k)) :
    k < maxOrder ∧ 2 ^ k ∣ p ∧ p + 2 ^ k ≤ z.size := by
  obtain ⟨hs, ho, hd⟩ := h.blocks.filed p _ ((h.filed.mem p _).mp hp)
  obtain rfl : ord p = k := ho
  exact ⟨h.blocks.small p hs, hd, h.blocks.tiling.block_le hs hd⟩

def Block.first : Block → Nat
  | .free _ p | .cached _ p | .allocated _ p => p

theorem Good.block (hb : b.Mem σ) (hi : b.Has i) :
    b.first < z.size ∧ 2 ^ ord b.first ∣ b.first ∧ i / 2 ^ ord b.first = b.first / 2 ^ ord b.first := by
  cases b with
  | free k p =>
    obtain ⟨hs, ho, hd⟩ := h.blocks.filed p _ ((h.filed.mem p _).mp hb)
    obtain rfl : ord p = k := ho
    exact ⟨hs, hd, (mem_block_iff hd).mpr hi⟩
  | cached c p =>
    obtain ⟨hs, ho, hd⟩ := h.blocks.filed p _ ((h.filed.mem p _).mp hb)
    obtain rfl : i = p := hi
    exact ⟨hs, hd, rfl⟩
  | allocated k p =>
    obtain ⟨hs, rfl, hd, -⟩ := h.blocks.taken p k hb
    exact ⟨hs, hd, (mem_block_iff hd).mpr hi⟩

theorem Good.inside (hb : b.Mem σ) (hi : b.Has i) :
    i < z.size := by
  obtain ⟨hp, -, hdiv⟩ := h.block hb hi
  exact (h.blocks.tiling _ hp i hdiv).1

theorem Good.block_unique {b' : Block} (hb : b.Mem σ) (hb' : b'.Mem σ)
    (hpage : b.first = b'.first) : b = b' := by
  -- what hangs on a list is not held
  have hheld : ∀ {p k : Nat}, σ.held p = some k → ∀ hd, p ∉ σ.zone.lists hd := by
    intro p k hp hd hmem
    rw [h.filed.mem, (h.blocks.taken p k hp).2.2.2] at hmem
    cases hmem
  have hlist : ∀ {p : Nat} {hd hd' : Head}, p ∈ σ.zone.lists hd → p ∈ σ.zone.lists hd' → hd = hd' := by
    intro p hd hd' hmem hmem'
    rw [h.filed.mem] at hmem hmem'
    rw [hmem] at hmem'
    exact Option.some.inj hmem'
  cases b <;> cases b' <;> cases hpage
  · cases hlist hb hb'; rfl
  · cases hlist hb hb'
  · exact absurd hb (hheld hb' _)
  · cases hlist hb hb'
  · cases hlist hb hb'; rfl
  · exact absurd hb (hheld hb' _)
  · exact absurd hb' (hheld hb _)
  · exact absurd hb' (hheld hb _)
  · cases Option.some.inj (hb.symm.trans hb'); rfl

/-- Every page is in a block, and in no other. -/
theorem Good.partition (hi : i < z.size) : ∃! b : Block, b.Mem σ ∧ b.Has i := by
  have hpos := Nat.two_pow_pos (ord i)
  obtain ⟨hp, hord⟩ := h.blocks.tiling i hi (i / 2 ^ ord i * 2 ^ ord i)
    (Nat.mul_div_cancel _ hpos)
  have hd : 2 ^ ord i ∣ i / 2 ^ ord i * 2 ^ ord i := Nat.dvd_mul_left ..
  have hin : i / 2 ^ ord i = i / 2 ^ ord i * 2 ^ ord i / 2 ^ ord i :=
    (Nat.mul_div_cancel _ hpos).symm
  generalize i / 2 ^ ord i * 2 ^ ord i = p at hp hord hd hin
  rw [← hord] at hd hin
  obtain ⟨b, hb, hbi⟩ : ∃ b : Block, b.Mem σ ∧ b.Has i := by
    have hhas := (mem_block_iff hd).mp hin
    cases hloc : loc p with
    | none => exact ⟨.allocated (ord p) p, h.blocks.cover p hp hd hloc, hhas⟩
    | some hd' =>
      have hmem := (h.filed.mem p hd').mpr hloc
      have ho := (h.blocks.filed p hd' hloc).2.1
      cases hd' with
      | area k => exact ⟨.free k p, hmem, by rw [ho] at hhas; exact hhas⟩
      | cpu c =>
        rw [ho] at hhas
        exact ⟨.cached c p, hmem, by simp only [headOrder, pow_zero] at hhas; exact (by omega : i = p)⟩
  refine ⟨b, ⟨hb, hbi⟩, fun b' hb' => ?_⟩
  obtain ⟨hs, hdb, hdiv⟩ := h.block hb hbi
  obtain ⟨hs', hdb', hdiv'⟩ := h.block hb'.1 hb'.2
  exact h.block_unique hb'.1 hb (h.blocks.tiling.head_unique hs' hs hdb' hdb hdiv' hdiv)

theorem Good.disjoint {k' p' : Nat} (hp : p ∈ σ.zone.lists (.area k))
    (hp' : p' ∈ σ.zone.lists (.area k')) (hne : (k, p) ≠ (k', p')) :
    p + 2 ^ k ≤ p' ∨ p' + 2 ^ k' ≤ p := by
  by_contra hnot
  have hpos := Nat.two_pow_pos k
  have hpos' := Nat.two_pow_pos k'
  obtain ⟨rfl, rfl⟩ := h.blocks.free_unique h.filed hp hp'
    ⟨Nat.le_max_left .., by omega⟩ ⟨Nat.le_max_right .., by omega⟩
  exact hne rfl

theorem Good.bitmap (hk : k < maxOrder - 1) (q : Nat) :
    σ.zone.map k q = true ↔
      Xor (2 * q * 2 ^ k ∈ σ.zone.lists (.area k))
        ((2 * q + 1) * 2 ^ k ∈ σ.zone.lists (.area k)) := by
  rw [h.bits k hk, h.filed.mem, h.filed.mem, freeAt, freeAt]
  by_cases h1 : loc (2 * q * 2 ^ k) = some (.area k) <;>
    by_cases h2 : loc ((2 * q + 1) * 2 ^ k) = some (.area k) <;> simp [h1, h2, Xor]

end

/-- After any run, the blocks and the bitmaps are in order, and whatever call comes next
returns: it reaches no `BUG()` and no bit outside of the bitmaps. -/
theorem zone_sound {os : List Op} (h : Run (Step z) (boot z) os σ) :
    Sound z σ ∧ ∀ o : Op, o.Allowed σ → ∃ σ', o.exec z σ = .ok σ' := by
  obtain ⟨ord, loc, hgood⟩ := run_good h
  refine ⟨⟨fun _ _ => hgood.aligned, fun _ => hgood.filed.nodup _, fun _ _ _ _ => hgood.disjoint,
    fun _ => hgood.bitmap, hgood.free, fun _ => hgood.partition, fun _ _ => hgood.inside⟩, ?_⟩
  intro o ha
  obtain ⟨σ', -, -, heq, -⟩ := step_good hgood ha
  exact ⟨σ', heq⟩

/-- A zone of five pages, without pools. -/
def smallZone : PageAlloc.Zone := ⟨16, 5, 64, 0, by decide, by decide⟩

/-- Boot frees the pages, and then a block of two is allocated. -/
def smallOps : List Op :=
  (List.range 5).flatMap (fun p =>
    [.use p 0 p { (boot smallZone).zone.page p with reserved := false }, .free 0 true p 0]) ++
    [.rmqueue 0 false 1]

theorem zone_sound_small : ∃ σ, Run (Step smallZone) (boot smallZone) smallOps σ ∧
      σ.zone.lists (.area 0) = [4] ∧ σ.zone.lists (.area 1) = [0] ∧ σ.held 2 = some 1 ∧
      Sound smallZone σ :=
  ⟨_, run_after smallZone smallOps _ (by decide +kernel), by decide +kernel, by decide +kernel,
    by decide +kernel, (zone_sound (run_after smallZone smallOps _ (by decide +kernel))).1⟩

end

end CustomKernel.Mm.ZoneCalls
