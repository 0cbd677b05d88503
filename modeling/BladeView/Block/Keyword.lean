import BladeView.Block.Frame

/-!
# Keywords

What the name of a block directive asks for. Names that are not listed close a guard, if they close
anything.
-/
namespace BladeView

/-- What a block directive does. -/
inductive Keyword where
  | openIf
  | elseIf
  | otherwise
  | closeIf
  | openIsset
  | closeIsset
  | openEmpty
  | closeEmpty
  | openGuard (g : Guard)
  | openSwitch
  | openCase
  | openDefault
  | leaveCase
  | closeSwitch
  | openForeach
  | closeForeach
  | openFor
  | closeFor
  | openWhile
  | closeWhile
  | openSection
  | closeSection
  | openBlock
  | closeBlock
  | openFollow
  | closeFollow
  | openPhp
  | closePhp
  | openRegister
  | closeRegister
  | openWrapper
  | closeWrapper
  | configureWrap
  | endWrap
  | closeGuard (name : Text)
  deriving DecidableEq

namespace Keyword

/-- The directives that are not guards. -/
def names : List (String × Keyword) :=
  [("if", openIf), ("elseif", elseIf), ("else", otherwise), ("endif", closeIf),
   ("isset", openIsset), ("endisset", closeIsset), ("empty", openEmpty), ("endempty", closeEmpty),
   ("switch", openSwitch), ("case", openCase), ("default", openDefault), ("break", leaveCase),
   ("endswitch", closeSwitch), ("foreach", openForeach), ("endforeach", closeForeach),
   ("for", openFor), ("endfor", closeFor), ("while", openWhile), ("endwhile", closeWhile),
   ("section", openSection), ("endsection", closeSection), ("show", closeSection),
   ("stop", closeSection), ("overwrite", closeSection), ("append", closeSection),
   ("block", openBlock), ("endblock", closeBlock), ("follow", openFollow), ("watch", openFollow),
   ("endfollow", closeFollow), ("endwatch", closeFollow), ("php", openPhp), ("endphp", closePhp),
   ("register", openRegister), ("endregister", closeRegister), ("wrapper", openWrapper),
   ("endwrapper", closeWrapper), ("wrap", configureWrap), ("template", configureWrap),
   ("endwrap", endWrap), ("endtemplate", endWrap)]

/-- What the directive of a name does. -/
def ofName (name : Text) : Keyword :=
  match names.find? fun entry => entry.1.toList == name with
  | some entry => entry.2
  | none =>
    match Guard.ofName? name with
    | some g => openGuard g
    | none => closeGuard name

end Keyword
end BladeView
