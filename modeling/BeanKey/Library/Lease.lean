import Mathlib.Data.List.Basic
import Mathlib.Order.Basic
import Mathlib.Order.Nat

/-! Leases on a link that several holders share. What the link holds is gone when its era ends; a
lease names an entry of its own era, and says what its holder knows of it. -/
namespace Leasing
variable {Name Entry Holder : Type*}

structure Link (Name Entry : Type*) where
  era : Nat
  registry : Name → Option Entry

structure Lease (Name Entry : Type*) where
  era : Nat
  name : Name
  knows : Entry → Prop

def Lease.Current (lease : Lease Name Entry) (link : Link Name Entry) : Prop :=
  lease.era = link.era

def Foreign (own : Option (Lease Name Entry)) (link : Link Name Entry) (name : Name) : Prop :=
  ∀ lease ∈ own, lease.Current link → lease.name ≠ name

/-! ### One holder -/

/-- A link as one holder sees it. Besides its own entry there is what the others had in `era`, and
nothing once that era is over. -/
structure Shares (link : Link Name Entry) (era : Nat) (others : Name → Option Entry)
    (own : Option (Lease Name Entry)) : Prop where
  era_le : era ≤ link.era
  bound : ∀ lease ∈ own, lease.era ≤ link.era
  held : ∀ lease ∈ own, lease.Current link →
    ∃ entry, link.registry lease.name = some entry ∧ lease.knows entry
  apart : ∀ lease ∈ own, lease.Current link → link.era = era → others lease.name = none
  kept : ∀ name, Foreign own link name →
    link.registry name = if link.era = era then others name else none

namespace Shares
variable {link after : Link Name Entry} {era : Nat} {others : Name → Option Entry}
  {own : Option (Lease Name Entry)} {lease : Lease Name Entry}

theorem ended (h : Shares link era others own) (hera : link.era < after.era)
    (hregistry : ∀ name, after.registry name = none) : Shares after era others none where
  era_le := by have := h.era_le; omega
  bound := by simp
  held := by simp
  apart := by simp
  kept := by
    intro name _
    have := h.era_le
    rw [hregistry, if_neg (by omega)]

/-- A lease of an old era can be dropped. -/
theorem dropped (h : Shares link era others (some lease)) (hover : ¬ lease.Current link) :
    Shares link era others none where
  era_le := h.era_le
  bound := by simp
  held := by simp
  apart := by simp
  kept := fun name _ => h.kept name (by simp [Foreign, hover])

/-- The holder of a lease can know less of its entry, or say it otherwise. -/
theorem renewed (h : Shares link era others (some lease)) {next : Lease Name Entry}
    (hera : next.era = lease.era) (hname : next.name = lease.name)
    (hknows : ∀ entry, lease.knows entry → next.knows entry) :
    Shares link era others (some next) where
  era_le := h.era_le
  bound := by simpa [hera] using h.bound lease rfl
  held := by
    intro held hheld hcurrent
    cases hheld
    obtain ⟨entry, hentry, hold⟩ := h.held lease rfl (hera.symm.trans hcurrent)
    exact ⟨entry, hname ▸ hentry, hknows entry hold⟩
  apart := by
    intro held hheld hcurrent
    cases hheld
    rw [hname]
    exact h.apart lease rfl (hera.symm.trans hcurrent)
  kept := by
    intro name hforeign
    refine h.kept name ?_
    simpa [Foreign, Lease.Current, hera, hname] using hforeign

variable [DecidableEq Name]

theorem updated (h : Shares link era others (some lease)) (hcurrent : lease.Current link)
    (hera : after.era = link.era) {entry : Entry}
    (hregistry : after.registry = Function.update link.registry lease.name (some entry))
    {next : Lease Name Entry} (hnextEra : next.era = lease.era) (hname : next.name = lease.name)
    (hknows : next.knows entry) : Shares after era others (some next) where
  era_le := hera ▸ h.era_le
  bound := by simpa [hnextEra, hera] using h.bound lease rfl
  held := by
    intro held hheld _
    cases hheld
    exact ⟨entry, by rw [hregistry, hname, Function.update_self], hknows⟩
  apart := by
    intro held hheld _ hsame
    cases hheld
    rw [hname]
    exact h.apart lease rfl hcurrent (hera ▸ hsame)
  kept := by
    intro name hforeign
    have hcurrent' : next.Current after := by
      unfold Lease.Current at *
      omega
    have hne : lease.name ≠ name := hname ▸ hforeign next rfl hcurrent'
    rw [hregistry, Function.update_of_ne hne.symm, hera]
    exact h.kept name (by simpa [Foreign] using fun _ => hne)

theorem returned (h : Shares link era others (some lease)) (hcurrent : lease.Current link)
    (hera : after.era = link.era)
    (hregistry : after.registry = Function.update link.registry lease.name none) :
    Shares after era others none where
  era_le := hera ▸ h.era_le
  bound := by simp
  held := by simp
  apart := by simp
  kept := by
    intro name _
    rw [hera]
    by_cases hname : lease.name = name
    · subst hname
      rw [hregistry, Function.update_self]
      split
      · next hsame => exact (h.apart lease rfl hcurrent hsame).symm
      · rfl
    · rw [hregistry, Function.update_of_ne (Ne.symm hname)]
      exact h.kept name (by simpa [Foreign] using fun _ => hname)

/-- Who has no lease takes one on a name that is free. -/
theorem taken (h : Shares link era others none) (hfree : link.registry lease.name = none)
    (hera : after.era = link.era) {entry : Entry}
    (hregistry : after.registry = Function.update link.registry lease.name (some entry))
    (hcurrent : lease.Current after) (hknows : lease.knows entry) :
    Shares after era others (some lease) where
  era_le := hera ▸ h.era_le
  bound := by
    intro held hheld
    cases hheld
    exact le_of_eq hcurrent
  held := by
    intro held hheld _
    cases hheld
    exact ⟨entry, by rw [hregistry, Function.update_self], hknows⟩
  apart := by
    intro held hheld _ hsame
    cases hheld
    have hothers := h.kept lease.name (by simp [Foreign])
    rwa [hfree, if_pos (hera ▸ hsame), eq_comm] at hothers
  kept := by
    intro name hforeign
    rw [hregistry, Function.update_of_ne (hforeign lease rfl hcurrent).symm, hera]
    exact h.kept name (by simp [Foreign])

end Shares

/-! ### All holders -/

/-- Every entry of the link belongs to one lease that is current, and every current lease has its
entry. -/
structure Ledger (link : Link Name Entry) (leases : Holder → Option (Lease Name Entry)) : Prop where
  bound : ∀ holder, ∀ lease ∈ leases holder, lease.era ≤ link.era
  held : ∀ holder, ∀ lease ∈ leases holder, lease.Current link →
    ∃ entry, link.registry lease.name = some entry ∧ lease.knows entry
  apart : ∀ first second, ∀ lease ∈ leases first, ∀ other ∈ leases second,
    lease.Current link → other.Current link → lease.name = other.name → first = second
  owned : ∀ name entry, link.registry name = some entry →
    ∃ holder, ∃ lease ∈ leases holder, lease.Current link ∧ lease.name = name

namespace Ledger
variable {link after : Link Name Entry} {leases : Holder → Option (Lease Name Entry)}

open Classical in
noncomputable def others (link : Link Name Entry) (own : Option (Lease Name Entry)) :
    Name → Option Entry :=
  fun name => if Foreign own link name then link.registry name else none

theorem others_eq_some {own : Option (Lease Name Entry)} {name : Name} {entry : Entry}
    (h : link.registry name = some entry) (hforeign : Foreign own link name) :
    others link own name = some entry := by
  rw [others, if_pos hforeign, h]

theorem shares (h : Ledger link leases) (holder : Holder) :
    Shares link link.era (others link (leases holder)) (leases holder) where
  era_le := le_rfl
  bound := h.bound holder
  held := h.held holder
  apart := fun lease hlease hcurrent _ => if_neg fun hforeign => hforeign lease hlease hcurrent rfl
  kept := fun name hforeign => by rw [if_pos rfl, others, if_pos hforeign]

theorem ended (h : Ledger link leases) (hera : link.era < after.era)
    (hregistry : ∀ name, after.registry name = none) : Ledger after leases where
  bound := fun holder lease hlease => (h.bound holder lease hlease).trans (by omega)
  held := by
    intro holder lease hlease hcurrent
    have := h.bound holder lease hlease
    unfold Lease.Current at hcurrent
    omega
  apart := by
    intro first second lease hlease _ _ hcurrent
    have := h.bound first lease hlease
    unfold Lease.Current at hcurrent
    omega
  owned := by simp [hregistry]

/-- Whatever one holder does with what is its own, the ledger of all stays right. -/
theorem update [DecidableEq Holder] (h : Ledger link leases) {holder : Holder}
    {own : Option (Lease Name Entry)}
    (hshares : Shares after link.era (others link (leases holder)) own) :
    Ledger after (Function.update leases holder own) := by
  have hcase : ∀ someone, ∀ lease ∈ Function.update leases holder own someone,
      someone = holder ∧ lease ∈ own ∨ someone ≠ holder ∧ lease ∈ leases someone := by
    intro someone lease hlease
    by_cases hsame : someone = holder
    · subst hsame
      exact .inl ⟨rfl, by simpa using hlease⟩
    · exact .inr ⟨hsame, by simpa [hsame] using hlease⟩
  -- A current lease of another holder is as old as the link before.
  have hother : ∀ someone, someone ≠ holder → ∀ lease ∈ leases someone, lease.Current after →
      after.era = link.era ∧ lease.Current link ∧
        ∃ entry, others link (leases holder) lease.name = some entry ∧ lease.knows entry := by
    intro someone hne lease hlease hcurrent
    have hle := h.bound someone lease hlease
    have hera := hshares.era_le
    unfold Lease.Current at hcurrent
    have hbefore : lease.Current link := by
      unfold Lease.Current
      omega
    obtain ⟨entry, hentry, hknows⟩ := h.held someone lease hlease hbefore
    refine ⟨by omega, hbefore, entry, others_eq_some hentry ?_, hknows⟩
    intro mine hmine hmineCurrent hname
    exact hne (h.apart holder someone mine hmine lease hlease hmineCurrent hbefore hname).symm
  have hapart : ∀ mine ∈ own, mine.Current after → ∀ someone, someone ≠ holder →
      ∀ lease ∈ leases someone, lease.Current after → mine.name ≠ lease.name := by
    intro mine hmine hmineCurrent someone hne lease hlease hcurrent hname
    obtain ⟨hsame, -, entry, hentry, -⟩ := hother someone hne lease hlease hcurrent
    rw [← hname, hshares.apart mine hmine hmineCurrent hsame] at hentry
    cases hentry
  constructor
  case bound =>
    intro someone lease hlease
    cases hcase someone lease hlease with
    | inl hmine => exact hshares.bound lease hmine.2
    | inr hothers => exact (h.bound someone lease hothers.2).trans hshares.era_le
  case held =>
    intro someone lease hlease hcurrent
    cases hcase someone lease hlease with
    | inl hmine => exact hshares.held lease hmine.2 hcurrent
    | inr hothers =>
      obtain ⟨hsame, -, entry, hentry, hknows⟩ :=
        hother someone hothers.1 lease hothers.2 hcurrent
      refine ⟨entry, ?_, hknows⟩
      rw [hshares.kept lease.name, if_pos hsame, hentry]
      intro mine hmine hmineCurrent
      exact hapart mine hmine hmineCurrent someone hothers.1 lease hothers.2 hcurrent
  case apart =>
    intro first second lease hlease other hother' hcurrent hotherCurrent hname
    cases hcase first lease hlease with
    | inl hfirst =>
      cases hcase second other hother' with
      | inl hsecond => exact hfirst.1.trans hsecond.1.symm
      | inr hsecond =>
        exact absurd hname (hapart lease hfirst.2 hcurrent second hsecond.1 other hsecond.2
          hotherCurrent)
    | inr hfirst =>
      cases hcase second other hother' with
      | inl hsecond =>
        exact absurd hname.symm (hapart other hsecond.2 hotherCurrent first hfirst.1 lease
          hfirst.2 hcurrent)
      | inr hsecond =>
        exact h.apart first second lease hfirst.2 other hsecond.2
          (hother first hfirst.1 lease hfirst.2 hcurrent).2.1
          (hother second hsecond.1 other hsecond.2 hotherCurrent).2.1 hname
  case owned =>
    intro name entry hentry
    by_cases hforeign : Foreign own after name
    · rw [hshares.kept name hforeign] at hentry
      split at hentry
      · next hsame =>
        unfold others at hentry
        split at hentry
        · next hforeignBefore =>
          obtain ⟨someone, lease, hlease, hcurrent, hname⟩ := h.owned name entry hentry
          have hne : someone ≠ holder := by
            rintro rfl
            exact hforeignBefore lease hlease hcurrent hname
          exact ⟨someone, lease, by simpa [hne] using hlease, hcurrent.trans hsame.symm, hname⟩
        · cases hentry
      · cases hentry
    · unfold Foreign at hforeign
      push Not at hforeign
      obtain ⟨lease, hlease, hcurrent, hname⟩ := hforeign
      exact ⟨holder, lease, by simpa using hlease, hcurrent, hname⟩

end Ledger

end Leasing
