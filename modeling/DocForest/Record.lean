/-
The records of a document that are not entities: headers, groups and pages.
-/
import DocForest.Entity.Basic

namespace DocForest

/-- A documented header file. -/
structure Header where
  id : String
  /-- The path under which it is included. -/
  name : String := ""
  brief : String := ""
  doc : String := ""
  /-- The ids of the headers that it includes itself. -/
  includes : List String := []
  headings : List Heading := []
  anchors : List String := []
  deriving DecidableEq

/-- A group of documented things. -/
structure Group where
  id : String
  name : String := ""
  brief : String := ""
  doc : String := ""
  /-- The id of the group that this one is part of; empty if there is none. -/
  parent : String := ""
  subgroups : List String := []
  headings : List Heading := []
  anchors : List String := []
  deriving DecidableEq

/-- A page of its own. -/
structure Page where
  id : String
  title : String := ""
  doc : String := ""
  /-- The id of the page that this one is part of; empty if there is none. -/
  parent : String := ""
  subpages : List String := []
  headings : List Heading := []
  anchors : List String := []
  deriving DecidableEq

/-- Lists a part of a group, once. -/
def Group.addSubgroup (g : Group) (id : String) : Group :=
  if id ∈ g.subgroups then g else { g with subgroups := g.subgroups ++ [id] }

/-- Lists a part of a page, once. -/
def Page.addSubpage (p : Page) (id : String) : Page :=
  if id ∈ p.subpages then p else { p with subpages := p.subpages ++ [id] }

end DocForest
