import DeclSchema.Options
import DeclSchema.Declaration
import Mathlib.Data.Set.Defs

/-!
# Mentions

The places of a declaration that name other declarations: named types and the entries of `extends`
clauses, wherever they stand, and even where no schema is made of them. A named type names
declarations by its arguments too if it is the form that collects the values of an interface, since
that one is looked up by the text of its argument.

## Main definitions

* `Mention`: a named type with the texts of its arguments, or an entry of an `extends` clause
* `TypeExpr.mentions`, `Declaration.mentions`: all mentions, in order
* `Mention.names`: the names by which a mention can look something up
* `Declaration.namesIn`: the names that occur in a list of declarations
-/

namespace DeclSchema

/-- A place that names other declarations. -/
inductive Mention where
  /-- A named type, with the texts of its arguments. -/
  | reference (name : Text) (arguments : List Text)
  /-- An entry of an `extends` clause. -/
  | heritage (name : Text)

namespace Mention

/-- The name that is mentioned. -/
def name : Mention → Text
  | reference n _ => n
  | heritage n => n

/-- The names by which declarations can be looked up there. -/
def names (o : Options) : Mention → List Text
  | reference n arguments => n :: if o.isValueOf n then arguments else []
  | heritage n => [n]

theorem name_mem_names (o : Options) (m : Mention) : m.name ∈ m.names o := by
  cases m <;> exact List.mem_cons_self

end Mention

mutual

/-- The mentions in a type expression. -/
def TypeExpr.mentions : TypeExpr → List Mention
  | .array _ element => mentionsOfOptional element
  | .union _ members => mentionsOfTypes members
  | .reference _ name arguments =>
    .reference name (arguments.map (·.text)) :: mentionsOfTypes arguments
  | .heritage base => base.mentions
  | .parenthesized _ inner => mentionsOfOptional inner
  | .object _ members => mentionsOfMembers members
  | .declared declaration => declaration.mentions
  | _ => []

/-- The mentions in a part of a node that may be absent. -/
def mentionsOfOptional : Option TypeExpr → List Mention
  | none => []
  | some type => type.mentions

/-- The mentions in the type expressions of a list. -/
def mentionsOfTypes : List TypeExpr → List Mention
  | [] => []
  | type :: rest => type.mentions ++ mentionsOfTypes rest

/-- The mentions in an entry of an `extends` clause. -/
def Heritage.mentions : Heritage → List Mention
  | .mk _ name arguments => .heritage name :: mentionsOfTypes arguments

/-- The mentions in an `extends` clause. -/
def mentionsOfHeritage : List Heritage → List Mention
  | [] => []
  | base :: rest => base.mentions ++ mentionsOfHeritage rest

/-- The mentions in a member. -/
def Member.mentions : Member → List Mention
  | .property _ _ type _ _ => mentionsOfOptional type
  | .index _ _ keyType type => mentionsOfOptional keyType ++ mentionsOfOptional type
  | .method _ _ returnType => mentionsOfOptional returnType
  | .call _ returnType => mentionsOfOptional returnType
  | .bare _ => []

/-- The mentions in the members of an object shape. -/
def mentionsOfMembers : List Member → List Mention
  | [] => []
  | member :: rest => member.mentions ++ mentionsOfMembers rest

/-- The mentions in a declaration. -/
def Declaration.mentions : Declaration → List Mention
  | .interface _ _ _ heritage members => mentionsOfHeritage heritage ++ mentionsOfMembers members
  | .typeAlias _ _ _ type => mentionsOfOptional type
  | .enumeration .. => []
  | .bare .. => []

end

theorem heritage_mem_mentions (base : Heritage) : .heritage base.name ∈ base.mentions := by
  cases base with
  | mk text name arguments =>
    rw [Heritage.mentions]
    exact List.mem_cons_self

theorem mentions_subset_mentionsOfHeritage {base : Heritage} {heritage : List Heritage}
    (h : base ∈ heritage) : base.mentions ⊆ mentionsOfHeritage heritage := by
  induction heritage with
  | nil => cases h
  | cons b rest ih =>
    rw [mentionsOfHeritage]
    rcases List.mem_cons.1 h with rfl | h
    · exact List.subset_append_left _ _
    · exact List.Subset.trans (ih h) (List.subset_append_right _ _)

/-- The names by which the declarations of a list can look others up. -/
def Declaration.namesIn (o : Options) (ds : List Declaration) : List Text :=
  ds.flatMap fun d => d.mentions.flatMap (Mention.names o)

/-- All names that mentions can look something up by are in a set. -/
def Mention.Within (o : Options) (s : Set Text) (mentions : List Mention) : Prop :=
  ∀ m ∈ mentions, ∀ n ∈ m.names o, n ∈ s

namespace Mention.Within

variable {o : Options} {s : Set Text}

theorem of_subset {ms ns : List Mention} (h : Within o s ms) (hs : ns ⊆ ms) : Within o s ns :=
  fun m hm => h m (hs hm)

theorem left {ms ns : List Mention} (h : Within o s (ms ++ ns)) : Within o s ms :=
  h.of_subset (List.subset_append_left _ _)

theorem right {ms ns : List Mention} (h : Within o s (ms ++ ns)) : Within o s ns :=
  h.of_subset (List.subset_append_right _ _)

theorem base_name_mem {heritage : List Heritage} (h : Within o s (mentionsOfHeritage heritage))
    {base : Heritage} (hb : base ∈ heritage) : base.name ∈ s :=
  h _ (mentions_subset_mentionsOfHeritage hb (heritage_mem_mentions base)) _ List.mem_cons_self

end Mention.Within

end DeclSchema
