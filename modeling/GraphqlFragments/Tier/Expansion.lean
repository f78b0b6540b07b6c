import GraphqlFragments.Fragment
import GraphqlFragments.Logged
import GraphqlFragments.Text.Contains
/-!
# Expanding tiers

The deep selections of a type become its full fragment or, if the type has tiers,
one fragment for each tier that selects something. Their relations are settled
with them: a target with tiers is spread by one of its listings, any other by its
full fragment.
-/

namespace GraphqlFragments.TierConfig

def publicListing : String := "PublicListing"

def publicTier : String := "Public"

def adminListing : String := "AdminListing"

def adminTier : String := "Admin"

/-- The label of the sibling fragment that a tier builds on. -/
def baseLabel? (label : String) : Option String :=
  if label = adminTier then some adminListing
  else if label = adminListing || label = publicTier then some publicListing
  else none

/-- The listing that stands for a relation in a fragment, given the tier of that
fragment if it is one. -/
def relationLabel : Option String → String
  | some label =>
      if Text.contains adminTier.toList label.toList then adminListing else publicListing
  | none => publicListing

/-- Settles a deep spread, and leaves any other as it is. -/
def settleSpread (config : TierConfig) (tier : Option String) (s : Spread) : Spread :=
  if s.suffix = .deepNesting then
    { s with suffix := if config.contains s.type then .tier (relationLabel tier) else .full }
  else s

def settle (config : TierConfig) (tier : Option String) : Selection → Selection
  | .nested field s => .nested field (config.settleSpread tier s)
  | selection => selection

/-- The selections of a tier before they are settled: the fragment that it builds
on, and the fields that it allows. -/
def tierSelections (type label : String) (allowed : List String) (deep : List Selection) :
    List Selection :=
  let base := (baseLabel? label).map fun base => Selection.spread ⟨type, .tier base⟩
  base.toList ++ deep.filter fun selection => selection.fieldName?.any allowed.contains

/-- The fragment of a tier, unless it would be empty. -/
def tierFragment? (config : TierConfig) (type : String) (deep : List Selection)
    (tier : String × List String) : Option Fragment :=
  match tierSelections type tier.1 tier.2 deep with
  | [] => none
  | selections => some ⟨type ++ tier.1, type, selections.map (config.settle (some tier.1))⟩

def fullFragment (config : TierConfig) (type : String) (deep : List Selection) : Fragment :=
  ⟨type ++ "Full", type, deep.map (config.settle none)⟩

/-- The deep fragments of a type. A type that selects nothing has none. -/
def deepFragments (config : TierConfig) (type : String) (deep : List Selection) :
    List Fragment :=
  if deep.isEmpty then []
  else
    match config.get? type with
    | none => [config.fullFragment type deep]
    | some tiers => tiers.filterMap (config.tierFragment? type deep)

/-- The labels of the tiers that are left out because they select nothing. -/
def emptyTiers (config : TierConfig) (type : String) (deep : List Selection) : List String :=
  if deep.isEmpty then []
  else
    ((config.get? type).getD []).filterMap fun (label, allowed) =>
      if (tierSelections type label allowed deep).isEmpty then some label else none

def expand (config : TierConfig) (type : String) (deep : List Selection) :
    Logged (List Fragment) := do
  Logged.note ((config.emptyTiers type deep).map (.emptyTier type))
  return config.deepFragments type deep

end GraphqlFragments.TierConfig
