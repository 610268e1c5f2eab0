/-
The nodes of a tree document are a forest, whatever the document says.
-/
import DesignTokens.Proofs.Document.Forested
import DesignTokens.Proofs.Document.Tree.Reading

namespace DesignTokens

variable {ι : Type}

/-! ## Groves of trees -/

mutual

theorem Entry.fits_grove {names : List String} {order : String} {next : Grove}
    (hn : next.Fits Content.isEntry) : (e : Entry ι) →
    (e.grove names order next).Fits Content.isEntry
  | .token _ _ => ⟨rfl, trivial, hn⟩
  | .group _ g children => ⟨rfl, fits_forestGrove (names ++ [g.name]) children, hn⟩

theorem fits_forestGrove (names : List String) : (es : List (String × Entry ι)) →
    (forestGrove names es).Fits Content.isEntry
  | [] => trivial
  | (_, e) :: es => Entry.fits_grove (fits_forestGrove names es) e

end

mutual

theorem Entry.accepted_grove {names : List String} {order : String} {next : Grove}
    (ho : OrderKey.Accepted order) (hn : next.Accepted) : (e : Entry ι) → e.Accepted →
    (e.grove names order next).Accepted
  | .token _ _, _ => ⟨ho, trivial, hn⟩
  | .group _ _ children, h => ⟨ho, accepted_forestGrove children h, hn⟩

theorem accepted_forestGrove {names : List String} : (es : List (String × Entry ι)) →
    ForestAccepted es → (forestGrove names es).Accepted
  | [], _ => trivial
  | (_, e) :: es, h => Entry.accepted_grove h.1 (accepted_forestGrove es h.2.2) e h.2.1

end

theorem formed_forestGrove {names : List String} {inherited : Option TokenType}
    {es : List (String × Entry ι)} (hr : ForestReadable inherited es) (ha : ForestAccepted es) :
    (forestGrove names es).Formed Content.isEntry :=
  ⟨orderly_forestGrove es hr, fits_forestGrove names es, accepted_forestGrove es ha⟩

namespace Tree

/-- The nodes of a tree document are a forest of groups and tokens. -/
theorem forested_parse (scheme : IdScheme) (options : ReadOptions) {doc : Json}
    (hdoc : doc.WellFormed) : Forested Content.isEntry (Tree.parse scheme options doc).nodes := by
  have hreadable : RootReadable (read options doc).value := readable_read hdoc
  have hformed : (forestGrove [] (read options doc).value).Formed Content.isEntry :=
    formed_forestGrove hreadable.forest (accepted_read options doc)
  have hforested := hformed.forested_scheduled (pathed_forestGrove [] _) scheme
  rwa [nodes_scheduled_forestGrove] at hforested

end Tree

end DesignTokens
