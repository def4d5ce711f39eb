import Stylesheet.Text.Alphanumeric

namespace Stylesheet.AtName

/-- The name without the vendor in front of it, if there is one. -/
def withoutVendor (name : String) : String :=
  match name.toList with
  | '-' :: rest =>
    let vendor := rest.takeWhile (· ≠ '-')
    let base := (rest.dropWhile (· ≠ '-')).tail
    if !vendor.isEmpty && !base.isEmpty && vendor.all (fun c => Text.isAlphanumeric c || c == '_') then
      String.ofList base
    else name
  | _ => name

/-- The rules that hold other rules in their braces. -/
def groupingRules : List String := ["media", "document", "supports", "region-style", "font-feature-values"]

def isGrouping (name : String) : Bool := groupingRules.contains (withoutVendor name)

def isKeyframes (name : String) : Bool := withoutVendor name == "keyframes"

end Stylesheet.AtName
