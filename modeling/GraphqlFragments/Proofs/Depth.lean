import GraphqlFragments.Proofs.Reachability
import GraphqlFragments.Proofs.Vocabulary
/-!
# The depth of default fragments

Default fragments spread nothing but fragments without relations, and these spread nothing. So
whoever follows the spreads of a default fragment is done after one step, also where types refer
to each other in a circle.
-/

namespace GraphqlFragments

namespace TypeSystem

variable {ts : TypeSystem} {config : TierConfig} {object : ObjectType} {e : Edition}
  {f g : Fragment} {s : Spread}

theorem suffix_of_mem_spreads_default (hs : s ∈ (ts.edition config object .default).spreads) :
    s.suffix = .noNesting := by
  obtain ⟨f, -, -, -, -, hsuffix⟩ | ⟨base, hbase, -⟩ := mem_spreads_edition_iff.mp hs
  · exact (Option.some.inj hsuffix).symm
  · cases hbase

theorem spreads_edition_noNesting : (ts.edition config object .noNesting).spreads = [] := by
  refine List.eq_nil_iff_forall_not_mem.mpr fun s hs => ?_
  obtain ⟨f, -, -, -, -, hsuffix⟩ | ⟨base, hbase, -⟩ := mem_spreads_edition_iff.mp hs
  · cases hsuffix
  · cases hbase

/-- Unless some type or tier is named so, only the fragments without relations have names that
end in their suffix. -/
theorem eq_noNesting_of_isSuffix
    (hfree : ∀ name ∈ ts.labelledNames config, ¬"NoNesting".toList <:+ name.toList)
    (hobject : object ∈ ts.objectTypes) (hhas : ts.HasEdition config object e)
    (hname : "NoNesting".toList <:+ (ts.edition config object e).name.toList) :
    e = .noNesting := by
  rcases name_edition_mem_labelledNames_or hobject hhas with hlabelled | rfl | rfl
  · exact absurd hname (hfree _ hlabelled)
  · rfl
  · obtain ⟨front, hfront⟩ := hname
    -- The full fragments have a suffix of their own, whatever their type is called.
    have hends : String.ofList front ++ "NoNesting" = object.name ++ "Full" := by
      rw [← String.toList_inj, String.toList_append, String.toList_ofList, hfront]
      rfl
    exact absurd (isSuffix_or_isSuffix_of_append_eq hends) (by decide)

variable (hfree : ∀ name ∈ ts.labelledNames config, ¬"NoNesting".toList <:+ name.toList)

include hfree in
/-- A spread of a default fragment can only be that of a fragment without relations. -/
theorem mem_noRelations_of_mem_spreads (hf : f ∈ (ts.emitted config).default) (hs : s ∈ f.spreads)
    (hg : g ∈ (ts.emitted config).all) (hname : g.name = s.fragmentName) :
    g ∈ (ts.emitted config).noRelations := by
  obtain ⟨owner, -, -, rfl⟩ := mem_default_iff.mp hf
  obtain ⟨object, hobject, e, hhas, rfl⟩ := mem_emitted_iff.mp hg
  have hsuffix : "NoNesting".toList <:+ (ts.edition config object e).name.toList := by
    rw [hname, Spread.fragmentName, suffix_of_mem_spreads_default hs, String.toList_append]
    exact List.suffix_append _ _
  obtain rfl := eq_noNesting_of_isSuffix hfree (List.mem_filter.mp hobject).1 hhas hsuffix
  exact mem_noRelations_iff.mpr ⟨object, hobject, hhas, rfl⟩

theorem spreads_of_mem_noRelations (hg : g ∈ (ts.emitted config).noRelations) :
    g.spreads = [] := by
  obtain ⟨object, -, -, rfl⟩ := mem_noRelations_iff.mp hg
  exact spreads_edition_noNesting

include hfree in
/-- One step from a default fragment leads to where no step goes on. -/
theorem length_le_one_of_isChain (hf : f ∈ (ts.emitted config).default) {chain : List Fragment}
    (hchain : (f :: chain).IsChain (ts.emitted config).Leads) : chain.length ≤ 1 := by
  match chain, hchain with
  | [], _ => exact Nat.zero_le 1
  | [g], _ => exact Nat.le_refl 1
  | g :: h :: rest, hchain =>
      rw [List.isChain_cons_cons, List.isChain_cons_cons] at hchain
      obtain ⟨⟨s, hs, hfind⟩, ⟨s', hs', -⟩, -⟩ := hchain
      have hg : g ∈ (ts.emitted config).noRelations :=
        mem_noRelations_of_mem_spreads hfree hf hs (List.mem_of_find?_eq_some hfind)
          (by simpa using List.find?_some hfind)
      -- The second step starts at a fragment that spreads nothing.
      rw [spreads_of_mem_noRelations hg] at hs'
      cases hs'

end TypeSystem

/-- If no object type has a name that ends in the suffix of fragments without relations, by
itself or with a label of its tiers, the spreads of default fragments name such fragments or
none, and chains of spreads from default fragments end after one step. -/
theorem default_depth_le_one {schema : String} {tiers : Option TierConfig} {set : FragmentSet}
    {ts : TypeSystem} (h : (generate schema tiers).result = .ok set)
    (hts : TypeSystem.ofText schema = .ok ts)
    (hfree : ∀ name ∈ ts.labelledNames (tiers.getD .empty),
      ¬"NoNesting".toList <:+ name.toList) :
    (∀ f ∈ set.default, ∀ s ∈ f.spreads, ∀ g ∈ set.all, g.name = s.fragmentName →
        g ∈ set.noRelations) ∧
      (∀ g ∈ set.noRelations, g.spreads = []) ∧
      ∀ f ∈ set.default, ∀ chain : List Fragment, (f :: chain).IsChain set.Leads →
        chain.length ≤ 1 := by
  obtain ⟨rfl, -⟩ := eq_emitted_of_generate h hts
  exact ⟨fun f hf s hs g hg => TypeSystem.mem_noRelations_of_mem_spreads hfree hf hs hg,
    fun g hg => TypeSystem.spreads_of_mem_noRelations hg,
    fun f hf chain => TypeSystem.length_le_one_of_isChain hfree hf⟩

/-- Users have friends, who are users. -/
def circle : String := "type User { name: String friend: User team: Team } type Team { head: User }"

def circleTypes : TypeSystem where
  kinds := TypeSystem.builtinKinds ++ [("User", .object), ("Team", .object)]
  objects :=
    [("User", [⟨"name", .named "String"⟩, ⟨"friend", .named "User"⟩, ⟨"team", .named "Team"⟩]),
      ("Team", [⟨"head", .named "User"⟩])]
  roots := .conventional

def circleTiers : TierConfig := [("Team", [("PublicListing", ["head"])])]

theorem default_depth_le_one_circle :
    ∃ set, (generate circle (some circleTiers)).result = .ok set ∧
      (∃ f ∈ set.all, set.Leads f f) ∧
      ∃ f ∈ set.default, (∃ g ∈ set.all, set.Leads f g) ∧
        ∀ chain : List Fragment, (f :: chain).IsChain set.Leads → chain.length ≤ 1 := by
  have htypes : TypeSystem.ofText circle = .ok circleTypes :=
    eq_ok_of_toOption (by decide +kernel)
  have hrun : (generate circle (some circleTiers)).result =
      .ok (circleTypes.emitted circleTiers) :=
    generate_eq_ok_iff.mpr ⟨circleTypes, htypes, by decide, by decide, rfl⟩
  obtain ⟨-, -, hdepth⟩ := default_depth_le_one hrun htypes (by decide)
  exact ⟨_, hrun, by decide, circleTypes.edition circleTiers
    ⟨"Team", [⟨"head", .named "User"⟩]⟩ .default, by decide, by decide, hdepth _ (by decide)⟩

end GraphqlFragments
