import BladeView.Reference

/-!
# The scan variant

Besides rendering itself, a view can be scanned: the same code runs with the calls that have an
effect exchanged for calls that only look. What a followed region holds is evaluated later on its
own, so within it the calls are changed back.
-/
namespace BladeView.ScanVariant

/-- Calls and what they become, in the order in which they are replaced. -/
def renames : List (String × String) :=
  [("App.View.renderView(", "App.View.scanRenderedView("),
   ("this.__includeif(", "this.__includeifScan("),
   ("this.__includewhen(", "this.__includewhenScan("),
   ("this.__include(", "this.__includeScan("),
   ("this.__extends(", "this.__extendsScan("),
   ("this.__showError(", "this.__showErrorScan("),
   ("App.View.section(", "this.__sectionScan("),
   ("this.__section(", "this.__sectionScan("),
   ("App.View.text(", "this.__textScan("),
   ("this.__text(", "this.__textScan("),
   ("this.subscribe(", "this.__subscribeScan("),
   ("this.__subscribe(", "this.__subscribeScan("),
   ("this.subscribeBlock(", "this.__subscribeBlockScan("),
   ("this.__subscribeBlock(", "this.__subscribeBlockScan("),
   ("this.useBlock(", "this.__useBlockScan("),
   ("this.__useBlock(", "this.__useBlockScan("),
   ("this.addBlock(", "this.__blockScan("),
   ("this.__block(", "this.__blockScan("),
   ("this.renderFollowingBlock(", "this.__followScan("),
   ("this.__follow(", "this.__followScan("),
   ("this.__addEventConfig(", "this.__addEventConfigScan(")]

/-- The changes back within a followed region, in order. -/
def reverts : List (String × String) :=
  [("App.View.scanRenderedView(", "App.View.renderView("),
   ("this.__includeifScan(", "this.__includeif("),
   ("this.__includewhenScan(", "this.__includewhen("),
   ("this.__includeScan(", "this.__include("),
   ("this.__sectionScan(", "this.__section("),
   ("this.__textScan(", "this.__text("),
   ("this.__subscribeScan(", "this.__subscribe("),
   ("this.__subscribeBlockScan(", "this.__subscribeBlock("),
   ("this.__useBlockScan(", "this.__useBlock("),
   ("this.__blockScan(", "this.__block("),
   ("this.__followScan(", "this.__follow("),
   ("this.__addEventConfigScan(", "this.__addEventConfig(")]

/-- Makes replacements one after the other. -/
def replaceAll (table : List (String × String)) (code : Text) : Text :=
  table.foldl (fun code entry => Text.replace entry.1.toList entry.2.toList code) code

/-- How a followed region begins, after its dollar sign and brace. -/
def followStart : Text := "this.__followScan("

/-- One place of the pass over followed regions. A region is copied with its inner calls changed
back. A region that is not closed ends the pass: from there on everything is copied. -/
def followStep (stopped : Bool) (t : Text) : Text × Bool × Nat :=
  if stopped || !Text.startsWith ("$\x7b" ++ followStart) t then (t.take 1, stopped, 0)
  else
    match Reference.interpolation? t with
    | none => (t.take 1, true, 0)
    | some (inner, rest) =>
      let body := inner.drop followStart.length ++ "\x7d"
      ("$\x7b" ++ followStart ++ replaceAll reverts body, false, Text.readBeyond t rest)

/-- Code with the calls in its followed regions changed back. -/
def revertFollowed (code : Text) : Text :=
  Text.sweep (fun _ stopped t => followStep stopped t) none false 0 code

/-- The scan variant of code. -/
def ofCode (code : Text) : Text := revertFollowed (replaceAll renames code)

end BladeView.ScanVariant
