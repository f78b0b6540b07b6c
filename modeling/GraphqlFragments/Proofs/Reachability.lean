import GraphqlFragments.Proofs.Resolution
import Mathlib.Logic.Relation
/-!
# Chains of spreads

Who uses a fragment gets what its spreads lead to, and what the spreads of those
fragments lead to in turn. If a configuration keeps to the known labels, no chain
leads from another fragment to an admin tier: `not_isAdminTier_of_leads` is one link
of a chain, and `adminTier_unreachable` is about chains of any length.
-/

namespace GraphqlFragments

namespace TierConfig

/-- The labels with a meaning of their own. -/
def knownLabels : List String := [publicListing, publicTier, adminListing, adminTier]

/-- All labels of a configuration are known ones. -/
def HasKnownLabels (config : TierConfig) : Prop :=
  ∀ entry ∈ config, ∀ tier ∈ entry.2, tier.1 ∈ knownLabels

instance (config : TierConfig) : Decidable config.HasKnownLabels :=
  inferInstanceAs (Decidable (∀ entry ∈ config, ∀ tier ∈ entry.2, tier.1 ∈ knownLabels))

def adminLabels : List String := [adminListing, adminTier]

/-- The suffixes that fragments other than admin tiers spread. -/
def openSuffixes : List SpreadSuffix := [.noNesting, .full, .tier publicListing]

variable {config : TierConfig} {label base target : String} {tier : Option String}

theorem relationLabel_of_known (hknown : label ∈ knownLabels) (hopen : label ∉ adminLabels) :
    relationLabel (some label) = publicListing := by
  have h : ∀ label ∈ knownLabels, label ∉ adminLabels →
      relationLabel (some label) = publicListing := by
    decide
  exact h label hknown hopen

theorem baseLabel?_of_notMem (hopen : label ∉ adminLabels) (h : baseLabel? label = some base) :
    base = publicListing := by
  rcases baseLabel?_eq_or h with hbase | hbase
  · exact hbase
  · -- Only the admin tier builds on the admin listing.
    have hadmin : label = adminTier := by
      unfold baseLabel? at h
      split at h
      · assumption
      · split at h
        · rw [← Option.some.inj h] at hbase
          exact absurd hbase (by decide)
        · cases h
    rw [hadmin] at hopen
    exact absurd hopen (by decide)

theorem deepSuffix_mem_openSuffixes (h : relationLabel tier = publicListing) :
    config.deepSuffix tier target ∈ openSuffixes := by
  unfold deepSuffix
  rw [h]
  split <;> decide

end TierConfig

open TierConfig (knownLabels adminLabels openSuffixes)

/-- Whatever the types are called, a name that ends in an open suffix is not that of
an admin tier. -/
theorem name_ne_of_mem_openSuffixes {suffix : SpreadSuffix} {label x y : String}
    (hsuffix : suffix ∈ openSuffixes) (hlabel : label ∈ adminLabels) :
    x ++ suffix.text ≠ y ++ label := by
  have hends : ∀ suffix ∈ openSuffixes, ∀ label ∈ adminLabels,
      ¬(suffix.text.toList <:+ label.toList ∨ label.toList <:+ suffix.text.toList) := by
    decide
  intro h
  exact hends suffix hsuffix label hlabel (isSuffix_or_isSuffix_of_append_eq h)

namespace FragmentSet

/-- A spread of one fragment leads to another by its name. -/
def Leads (set : FragmentSet) (f g : Fragment) : Prop :=
  ∃ s ∈ f.spreads, set.find? s.fragmentName = some g

/-- The fragment is the admin tier of its type or the admin listing. -/
def IsAdminTier (set : FragmentSet) (f : Fragment) : Prop :=
  f ∈ set.deep ∧ ∃ label ∈ adminLabels, f.name = f.type ++ label

instance (set : FragmentSet) (f g : Fragment) : Decidable (set.Leads f g) :=
  inferInstanceAs (Decidable (∃ s ∈ f.spreads, set.find? s.fragmentName = some g))

instance (set : FragmentSet) (f : Fragment) : Decidable (set.IsAdminTier f) :=
  inferInstanceAs (Decidable (f ∈ set.deep ∧ ∃ label ∈ adminLabels, f.name = f.type ++ label))

end FragmentSet

namespace TypeSystem

variable {ts : TypeSystem} {config : TierConfig} {object : ObjectType} {e : Edition}
  {s : Spread} {f g : Fragment}

/-- Of the editions of a type those with an admin label are admin tiers. -/
theorem isAdminTier_edition_iff (hobject : object ∈ ts.fragmentTypes)
    (hhas : ts.HasEdition config object e) :
    (ts.emitted config).IsAdminTier (ts.edition config object e) ↔
      ∃ label allowed, e = .tier label allowed ∧ label ∈ adminLabels := by
  constructor
  · rintro ⟨-, label, hlabel, hname⟩
    rw [name_edition, type_edition, String.append_right_inj] at hname
    cases e with
    | tier l allowed => exact ⟨l, allowed, rfl, by rwa [← hname] at hlabel⟩
    | default => exact absurd (hname ▸ hlabel) (by decide)
    | noNesting => exact absurd (hname ▸ hlabel) (by decide)
    | full => exact absurd (hname ▸ hlabel) (by decide)
  · rintro ⟨label, allowed, rfl, hlabel⟩
    exact ⟨mem_deep_iff.mpr ⟨object, hobject, Or.inr ⟨label, allowed, hhas, rfl⟩⟩,
      label, hlabel, rfl⟩

/-- Only admin tiers spread with the suffix of the admin listing. -/
theorem suffix_mem_openSuffixes (hlabels : config.HasKnownLabels)
    (hhas : ts.HasEdition config object e)
    (hopen : ∀ label allowed, e = .tier label allowed → label ∉ adminLabels)
    (hs : ts.Spreads config object e s) : s.suffix ∈ openSuffixes := by
  obtain ⟨d, -, -, -, -, hsuffix⟩ | ⟨base, hbase, rfl⟩ := hs
  · cases e with
    | default =>
        rw [← Option.some.inj hsuffix]
        decide
    | noNesting => cases hsuffix
    | full =>
        rw [← Option.some.inj hsuffix]
        exact TierConfig.deepSuffix_mem_openSuffixes rfl
    | tier label allowed =>
        obtain ⟨-, ⟨tiers, hget, hmem⟩, -⟩ := hhas
        have hknown : label ∈ knownLabels := hlabels _ (Table.mem_of_get? hget) _ hmem
        rw [← Option.some.inj hsuffix]
        exact TierConfig.deepSuffix_mem_openSuffixes
          (TierConfig.relationLabel_of_known hknown (hopen label allowed rfl))
  · cases e with
    | tier label allowed =>
        rw [TierConfig.baseLabel?_of_notMem (hopen label allowed rfl) hbase]
        change SpreadSuffix.tier TierConfig.publicListing ∈ openSuffixes
        decide
    | default => cases hbase
    | noNesting => cases hbase
    | full => cases hbase

/-- A spread never leads from another fragment to an admin tier. -/
theorem not_isAdminTier_of_leads (hlabels : config.HasKnownLabels)
    (hf : f ∈ (ts.emitted config).all) (hopen : ¬(ts.emitted config).IsAdminTier f)
    (hleads : (ts.emitted config).Leads f g) :
    g ∈ (ts.emitted config).all ∧ ¬(ts.emitted config).IsAdminTier g := by
  obtain ⟨s, hs, hfind⟩ := hleads
  obtain ⟨object, hobject, e, hhas, rfl⟩ := mem_emitted_iff.mp hf
  have hlabel : ∀ label allowed, e = .tier label allowed → label ∉ adminLabels := by
    intro label allowed he hadmin
    exact hopen ((isAdminTier_edition_iff hobject hhas).mpr ⟨label, allowed, he, hadmin⟩)
  have hsuffix := suffix_mem_openSuffixes hlabels hhas hlabel (mem_spreads_edition_iff.mp hs)
  have hname : g.name = s.fragmentName := by simpa using List.find?_some hfind
  refine ⟨List.mem_of_find?_eq_some hfind, ?_⟩
  rintro ⟨-, label, hadmin, hg⟩
  exact name_ne_of_mem_openSuffixes hsuffix hadmin (hname.symm.trans hg)

end TypeSystem

/-! ## Chains of a run -/

variable {schema : String} {tiers : Option TierConfig} {set : FragmentSet}

/-- With known labels only, no chain of spreads leads to an admin tier from a fragment
that is none: neither from the default fragment of a type nor from the one without
relations, the full one or a public tier. -/
theorem adminTier_unreachable (h : (generate schema tiers).result = .ok set)
    (hlabels : (tiers.getD .empty).HasKnownLabels) {f g : Fragment} (hf : f ∈ set.all)
    (hopen : ¬set.IsAdminTier f) (hchain : Relation.ReflTransGen set.Leads f g) :
    ¬set.IsAdminTier g := by
  obtain ⟨ts, -, -, -, rfl⟩ := generate_eq_ok_iff.mp h
  have hrun : g ∈ (ts.emitted (tiers.getD .empty)).all ∧
      ¬(ts.emitted (tiers.getD .empty)).IsAdminTier g := by
    induction hchain with
    | refl => exact ⟨hf, hopen⟩
    | tail _ hleads ih => exact TypeSystem.not_isAdminTier_of_leads hlabels ih.1 ih.2 hleads
  exact hrun.2

/-- The tiers of users, for everybody and for the staff. -/
def staffTiers : TierConfig :=
  [("User", [("PublicListing", ["name"]), ("Public", []), ("AdminListing", []), ("Admin", [])])]

theorem adminTier_unreachable_blog :
    ∃ set, (generate blog (some staffTiers)).result = .ok set ∧
      (∃ admin ∈ set.all, set.IsAdminTier admin) ∧
      ∃ f ∈ set.all, ∃ g ∈ set.all, set.Leads f g ∧ ¬set.IsAdminTier g := by
  have hrun : (generate blog (some staffTiers)).result = .ok (blogTypes.emitted staffTiers) :=
    generate_eq_ok_iff.mpr ⟨blogTypes, ofText_blog, by decide, by decide, rfl⟩
  let post : Fragment :=
    ⟨"PostFull", "Post", [.field "id", .nested "author" ⟨"User", .tier "PublicListing"⟩]⟩
  let listing : Fragment := ⟨"UserPublicListing", "User", [.field "name"]⟩
  have hleads : (blogTypes.emitted staffTiers).Leads post listing := by decide
  have hopen := adminTier_unreachable hrun (by decide) (f := post) (by decide) (by decide)
    (Relation.ReflTransGen.single hleads)
  exact ⟨_, hrun, by decide, post, by decide, listing, by decide, hleads, hopen⟩

end GraphqlFragments
