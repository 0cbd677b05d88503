import BladeView.Text.Word

/-!
# Letter case

Capitals and small letters of every script. Most letters have one counterpart; the tables list
runs of letters that lie at a constant distance from theirs, and the letters that become several.
The small form of a capital sigma depends on its place: at the end of a word it is the final
sigma.
-/
namespace BladeView

/-- A run of letters `first, first + step, .., first + length`, each `shift` away from its
counterpart. -/
abbrev CaseRun := Nat × Nat × Nat × Int

namespace CaseRun

/-- The last letter of a run. -/
def last (run : CaseRun) : Nat := run.1 + run.2.1

/-- The counterpart of a letter, if the run holds it. -/
def map? (run : CaseRun) (n : Nat) : Option Char :=
  if run.1 ≤ n && n ≤ run.last && (n - run.1) % run.2.2.1 == 0 then
    some (Char.ofNat (Int.toNat (n + run.2.2.2)))
  else none

/-- The code that the first letter of a run leads to. -/
def low (run : CaseRun) : Nat := Int.toNat (run.1 + run.2.2.2)

/-- The run from the counterparts back to the letters. -/
def reverse (run : CaseRun) : CaseRun := (run.low, run.2.1, run.2.2.1, -run.2.2.2)

end CaseRun

/-- Small letters beyond ASCII and the way to their capitals, which lead back to them. -/
def caseRuns : List CaseRun :=
  [
   (0xE0, 22, 1, -32), (0xF8, 6, 1, -32), (0xFF, 0, 1, 121), (0x101, 46, 2, -1), (0x133, 4, 2, -1),
   (0x13A, 14, 2, -1), (0x14B, 44, 2, -1), (0x17A, 4, 2, -1), (0x180, 0, 1, 195), (0x183, 2, 2, -1),
   (0x188, 0, 1, -1), (0x18C, 0, 1, -1), (0x192, 0, 1, -1), (0x195, 0, 1, 97), (0x199, 0, 1, -1),
   (0x19A, 0, 1, 163), (0x19B, 0, 1, 42561), (0x19E, 0, 1, 130), (0x1A1, 4, 2, -1),
   (0x1A8, 0, 1, -1), (0x1AD, 0, 1, -1), (0x1B0, 0, 1, -1), (0x1B4, 2, 2, -1), (0x1B9, 0, 1, -1),
   (0x1BD, 0, 1, -1), (0x1BF, 0, 1, 56), (0x1C6, 0, 1, -2), (0x1C9, 0, 1, -2), (0x1CC, 0, 1, -2),
   (0x1CE, 14, 2, -1), (0x1DD, 0, 1, -79), (0x1DF, 16, 2, -1), (0x1F3, 0, 1, -2), (0x1F5, 0, 1, -1),
   (0x1F9, 38, 2, -1), (0x223, 16, 2, -1), (0x23C, 0, 1, -1), (0x23F, 1, 1, 10815),
   (0x242, 0, 1, -1), (0x247, 8, 2, -1), (0x250, 0, 1, 10783), (0x251, 0, 1, 10780),
   (0x252, 0, 1, 10782), (0x253, 0, 1, -210), (0x254, 0, 1, -206), (0x256, 1, 1, -205),
   (0x259, 0, 1, -202), (0x25B, 0, 1, -203), (0x25C, 0, 1, 42319), (0x260, 0, 1, -205),
   (0x261, 0, 1, 42315), (0x263, 0, 1, -207), (0x264, 0, 1, 42343), (0x265, 0, 1, 42280),
   (0x266, 0, 1, 42308), (0x268, 0, 1, -209), (0x269, 0, 1, -211), (0x26A, 0, 1, 42308),
   (0x26B, 0, 1, 10743), (0x26C, 0, 1, 42305), (0x26F, 0, 1, -211), (0x271, 0, 1, 10749),
   (0x272, 0, 1, -213), (0x275, 0, 1, -214), (0x27D, 0, 1, 10727), (0x280, 0, 1, -218),
   (0x282, 0, 1, 42307), (0x283, 0, 1, -218), (0x287, 0, 1, 42282), (0x288, 0, 1, -218),
   (0x289, 0, 1, -69), (0x28A, 1, 1, -217), (0x28C, 0, 1, -71), (0x292, 0, 1, -219),
   (0x29D, 0, 1, 42261), (0x29E, 0, 1, 42258), (0x371, 2, 2, -1), (0x377, 0, 1, -1),
   (0x37B, 2, 1, 130), (0x3AC, 0, 1, -38), (0x3AD, 2, 1, -37), (0x3B1, 16, 1, -32),
   (0x3C3, 8, 1, -32), (0x3CC, 0, 1, -64), (0x3CD, 1, 1, -63), (0x3D7, 0, 1, -8),
   (0x3D9, 22, 2, -1), (0x3F2, 0, 1, 7), (0x3F3, 0, 1, -116), (0x3F8, 0, 1, -1), (0x3FB, 0, 1, -1),
   (0x430, 31, 1, -32), (0x450, 15, 1, -80), (0x461, 32, 2, -1), (0x48B, 52, 2, -1),
   (0x4C2, 12, 2, -1), (0x4CF, 0, 1, -15), (0x4D1, 94, 2, -1), (0x561, 37, 1, -48),
   (0x10D0, 42, 1, 3008), (0x10FD, 2, 1, 3008), (0x13F8, 5, 1, -8), (0x1C8A, 0, 1, -1),
   (0x1D79, 0, 1, 35332), (0x1D7D, 0, 1, 3814), (0x1D8E, 0, 1, 35384), (0x1E01, 148, 2, -1),
   (0x1EA1, 94, 2, -1), (0x1F00, 7, 1, 8), (0x1F10, 5, 1, 8), (0x1F20, 7, 1, 8), (0x1F30, 7, 1, 8),
   (0x1F40, 5, 1, 8), (0x1F51, 6, 2, 8), (0x1F60, 7, 1, 8), (0x1F70, 1, 1, 74), (0x1F72, 3, 1, 86),
   (0x1F76, 1, 1, 100), (0x1F78, 1, 1, 128), (0x1F7A, 1, 1, 112), (0x1F7C, 1, 1, 126),
   (0x1FB0, 1, 1, 8), (0x1FD0, 1, 1, 8), (0x1FE0, 1, 1, 8), (0x1FE5, 0, 1, 7), (0x214E, 0, 1, -28),
   (0x2170, 15, 1, -16), (0x2184, 0, 1, -1), (0x24D0, 25, 1, -26), (0x2C30, 47, 1, -48),
   (0x2C61, 0, 1, -1), (0x2C65, 0, 1, -10795), (0x2C66, 0, 1, -10792), (0x2C68, 4, 2, -1),
   (0x2C73, 0, 1, -1), (0x2C76, 0, 1, -1), (0x2C81, 98, 2, -1), (0x2CEC, 2, 2, -1),
   (0x2CF3, 0, 1, -1), (0x2D00, 37, 1, -7264), (0x2D27, 0, 1, -7264), (0x2D2D, 0, 1, -7264),
   (0xA641, 44, 2, -1), (0xA681, 26, 2, -1), (0xA723, 12, 2, -1), (0xA733, 60, 2, -1),
   (0xA77A, 2, 2, -1), (0xA77F, 8, 2, -1), (0xA78C, 0, 1, -1), (0xA791, 2, 2, -1),
   (0xA794, 0, 1, 48), (0xA797, 18, 2, -1), (0xA7B5, 14, 2, -1), (0xA7C8, 2, 2, -1),
   (0xA7CD, 14, 2, -1), (0xA7F6, 0, 1, -1), (0xAB53, 0, 1, -928), (0xAB70, 79, 1, -38864),
   (0xFF41, 25, 1, -32), (0x10428, 39, 1, -40), (0x104D8, 35, 1, -40), (0x10597, 36, 2, -39),
   (0x10598, 8, 2, -39), (0x105A4, 12, 2, -39), (0x105B4, 4, 2, -39), (0x105BC, 0, 1, -39),
   (0x10CC0, 50, 1, -64), (0x10D70, 21, 1, -32), (0x118C0, 31, 1, -32), (0x16E60, 31, 1, -32),
   (0x16EBB, 24, 1, -27), (0x1E922, 33, 1, -34)]

/-- Further letters with one capital. -/
def otherUpperRuns : List CaseRun :=
  [
   (0xB5, 0, 1, 743), (0x131, 0, 1, -232), (0x17F, 0, 1, -300), (0x1C5, 0, 1, -1),
   (0x1C8, 0, 1, -1), (0x1CB, 0, 1, -1), (0x1F2, 0, 1, -1), (0x345, 0, 1, 84), (0x3C2, 0, 1, -31),
   (0x3D0, 0, 1, -62), (0x3D1, 0, 1, -57), (0x3D5, 0, 1, -47), (0x3D6, 0, 1, -54),
   (0x3F0, 0, 1, -86), (0x3F1, 0, 1, -80), (0x3F5, 0, 1, -96), (0x1C80, 0, 1, -6254),
   (0x1C81, 0, 1, -6253), (0x1C82, 0, 1, -6244), (0x1C83, 1, 1, -6242), (0x1C85, 0, 1, -6243),
   (0x1C86, 0, 1, -6236), (0x1C87, 0, 1, -6181), (0x1C88, 0, 1, 35266), (0x1E9B, 0, 1, -59),
   (0x1FBE, 0, 1, -7205)]

def upperRuns : List CaseRun := caseRuns ++ otherUpperRuns

/-- Letters with an iota below, eight at a time. Their capitals are those of the letters without it,
which are given here, and an iota. -/
def iotaRuns : List (Nat × Nat) :=
  [(0x1F80, 0x1F08), (0x1F88, 0x1F08), (0x1F90, 0x1F28), (0x1F98, 0x1F28), (0x1FA0, 0x1F68),
   (0x1FA8, 0x1F68)]

/-- Letters whose capital form is several letters. -/
def upperSpecials : List (Nat × List Nat) :=
  [
   (0xDF, [0x53, 0x53]), (0x149, [0x2BC, 0x4E]), (0x1F0, [0x4A, 0x30C]),
   (0x390, [0x399, 0x308, 0x301]), (0x3B0, [0x3A5, 0x308, 0x301]), (0x587, [0x535, 0x552]),
   (0x1E96, [0x48, 0x331]), (0x1E97, [0x54, 0x308]), (0x1E98, [0x57, 0x30A]),
   (0x1E99, [0x59, 0x30A]), (0x1E9A, [0x41, 0x2BE]), (0x1F50, [0x3A5, 0x313]),
   (0x1F52, [0x3A5, 0x313, 0x300]), (0x1F54, [0x3A5, 0x313, 0x301]),
   (0x1F56, [0x3A5, 0x313, 0x342]), (0x1FB2, [0x1FBA, 0x399]), (0x1FB3, [0x391, 0x399]),
   (0x1FB4, [0x386, 0x399]), (0x1FB6, [0x391, 0x342]), (0x1FB7, [0x391, 0x342, 0x399]),
   (0x1FBC, [0x391, 0x399]), (0x1FC2, [0x1FCA, 0x399]), (0x1FC3, [0x397, 0x399]),
   (0x1FC4, [0x389, 0x399]), (0x1FC6, [0x397, 0x342]), (0x1FC7, [0x397, 0x342, 0x399]),
   (0x1FCC, [0x397, 0x399]), (0x1FD2, [0x399, 0x308, 0x300]), (0x1FD3, [0x399, 0x308, 0x301]),
   (0x1FD6, [0x399, 0x342]), (0x1FD7, [0x399, 0x308, 0x342]), (0x1FE2, [0x3A5, 0x308, 0x300]),
   (0x1FE3, [0x3A5, 0x308, 0x301]), (0x1FE4, [0x3A1, 0x313]), (0x1FE6, [0x3A5, 0x342]),
   (0x1FE7, [0x3A5, 0x308, 0x342]), (0x1FF2, [0x1FFA, 0x399]), (0x1FF3, [0x3A9, 0x399]),
   (0x1FF4, [0x38F, 0x399]), (0x1FF6, [0x3A9, 0x342]), (0x1FF7, [0x3A9, 0x342, 0x399]),
   (0x1FFC, [0x3A9, 0x399]), (0xFB00, [0x46, 0x46]), (0xFB01, [0x46, 0x49]), (0xFB02, [0x46, 0x4C]),
   (0xFB03, [0x46, 0x46, 0x49]), (0xFB04, [0x46, 0x46, 0x4C]), (0xFB05, [0x53, 0x54]),
   (0xFB06, [0x53, 0x54]), (0xFB13, [0x544, 0x546]), (0xFB14, [0x544, 0x535]),
   (0xFB15, [0x544, 0x53B]), (0xFB16, [0x54E, 0x546]), (0xFB17, [0x544, 0x53D])]
  ++ iotaRuns.flatMap fun run => (List.range 8).map fun k => (run.1 + k, [run.2 + k, 0x399])

/-- Further letters with one small letter. -/
def otherLowerRuns : List CaseRun :=
  [
   (0x1C5, 0, 1, 1), (0x1C8, 0, 1, 1), (0x1CB, 0, 1, 1), (0x1F2, 0, 1, 1), (0x3F4, 0, 1, -60),
   (0x1E9E, 0, 1, -7615), (0x1F88, 7, 1, -8), (0x1F98, 7, 1, -8), (0x1FA8, 7, 1, -8),
   (0x1FBC, 0, 1, -9), (0x1FCC, 0, 1, -9), (0x1FFC, 0, 1, -9), (0x2126, 0, 1, -7517),
   (0x212A, 0, 1, -8383), (0x212B, 0, 1, -8262)]

def lowerRuns : List CaseRun := caseRuns.map CaseRun.reverse ++ otherLowerRuns

/-- Characters that do not count when the neighbours of a sigma are looked for. -/
def caseIgnorableCodes : CodeSet where
  ranges := [
    (0xB7, 1), (0x2B0, 191), (0x374, 1), (0x384, 1), (0x483, 6), (0x591, 44), (0x5C1, 1),
    (0x5C4, 1), (0x600, 5), (0x610, 10), (0x64B, 20), (0x6D6, 7), (0x6DF, 9), (0x6EA, 3),
    (0x730, 26), (0x7A6, 10), (0x7EB, 10), (0x816, 23), (0x859, 2), (0x890, 1), (0x897, 8),
    (0x8C9, 57), (0x941, 7), (0x951, 6), (0x962, 1), (0x9C1, 3), (0x9E2, 1), (0xA01, 1), (0xA41, 1),
    (0xA47, 1), (0xA4B, 2), (0xA70, 1), (0xA81, 1), (0xAC1, 4), (0xAC7, 1), (0xAE2, 1), (0xAFA, 5),
    (0xB41, 3), (0xB55, 1), (0xB62, 1), (0xC3E, 2), (0xC46, 2), (0xC4A, 3), (0xC55, 1), (0xC62, 1),
    (0xCCC, 1), (0xCE2, 1), (0xD00, 1), (0xD3B, 1), (0xD41, 3), (0xD62, 1), (0xDD2, 2), (0xE34, 6),
    (0xE46, 8), (0xEB4, 8), (0xEC8, 6), (0xF18, 1), (0xF71, 13), (0xF80, 4), (0xF86, 1),
    (0xF8D, 10), (0xF99, 35), (0x102D, 3), (0x1032, 5), (0x1039, 1), (0x103D, 1), (0x1058, 1),
    (0x105E, 2), (0x1071, 3), (0x1085, 1), (0x135D, 2), (0x1712, 2), (0x1732, 1), (0x1752, 1),
    (0x1772, 1), (0x17B4, 1), (0x17B7, 6), (0x17C9, 10), (0x180B, 4), (0x1885, 1), (0x1920, 2),
    (0x1927, 1), (0x1939, 2), (0x1A17, 1), (0x1A58, 6), (0x1A65, 7), (0x1A73, 9), (0x1AB0, 45),
    (0x1AE0, 11), (0x1B00, 3), (0x1B36, 4), (0x1B6B, 8), (0x1B80, 1), (0x1BA2, 3), (0x1BA8, 1),
    (0x1BAB, 2), (0x1BE8, 1), (0x1BEF, 2), (0x1C2C, 7), (0x1C36, 1), (0x1C78, 5), (0x1CD0, 2),
    (0x1CD4, 12), (0x1CE2, 6), (0x1CF8, 1), (0x1D2C, 62), (0x1D9B, 100), (0x1FBF, 2), (0x1FCD, 2),
    (0x1FDD, 2), (0x1FED, 2), (0x1FFD, 1), (0x200B, 4), (0x2018, 1), (0x202A, 4), (0x2060, 4),
    (0x2066, 9), (0x2090, 12), (0x20D0, 32), (0x2C7C, 1), (0x2CEF, 2), (0x2DE0, 31), (0x302A, 3),
    (0x3031, 4), (0x3099, 5), (0x30FC, 2), (0xA4F8, 5), (0xA66F, 3), (0xA674, 9), (0xA69C, 3),
    (0xA6F0, 1), (0xA700, 33), (0xA788, 2), (0xA7F1, 3), (0xA7F8, 1), (0xA825, 1), (0xA8C4, 1),
    (0xA8E0, 17), (0xA926, 7), (0xA947, 10), (0xA980, 2), (0xA9B6, 3), (0xA9BC, 1), (0xA9E5, 1),
    (0xAA29, 5), (0xAA31, 1), (0xAA35, 1), (0xAAB2, 2), (0xAAB7, 1), (0xAABE, 1), (0xAAEC, 1),
    (0xAAF3, 1), (0xAB5B, 4), (0xAB69, 2), (0xFBB2, 16), (0xFE00, 15), (0xFE20, 15), (0xFF9E, 1),
    (0xFFF9, 2), (0x10376, 4), (0x10780, 5), (0x10787, 41), (0x107B2, 8), (0x10A01, 2),
    (0x10A05, 1), (0x10A0C, 3), (0x10A38, 2), (0x10AE5, 1), (0x10D24, 3), (0x10D69, 4),
    (0x10EAB, 1), (0x10EFA, 5), (0x10F46, 10), (0x10F82, 3), (0x11038, 14), (0x11073, 1),
    (0x1107F, 2), (0x110B3, 3), (0x110B9, 1), (0x11100, 2), (0x11127, 4), (0x1112D, 7),
    (0x11180, 1), (0x111B6, 8), (0x111C9, 3), (0x1122F, 2), (0x11236, 1), (0x112E3, 7),
    (0x11300, 1), (0x1133B, 1), (0x11366, 6), (0x11370, 4), (0x113BB, 5), (0x113E1, 1),
    (0x11438, 7), (0x11442, 2), (0x114B3, 5), (0x114BF, 1), (0x114C2, 1), (0x115B2, 3),
    (0x115BC, 1), (0x115BF, 1), (0x115DC, 1), (0x11633, 7), (0x1163F, 1), (0x116B0, 5),
    (0x11722, 3), (0x11727, 4), (0x1182F, 8), (0x11839, 1), (0x1193B, 1), (0x119D4, 3),
    (0x119DA, 1), (0x11A01, 9), (0x11A33, 5), (0x11A3B, 3), (0x11A51, 5), (0x11A59, 2),
    (0x11A8A, 12), (0x11A98, 1), (0x11B62, 2), (0x11C30, 6), (0x11C38, 5), (0x11C92, 21),
    (0x11CAA, 6), (0x11CB2, 1), (0x11CB5, 1), (0x11D31, 5), (0x11D3C, 1), (0x11D3F, 6),
    (0x11D90, 1), (0x11EF3, 1), (0x11F00, 1), (0x11F36, 4), (0x13430, 16), (0x13447, 14),
    (0x1611E, 11), (0x1612D, 2), (0x16AF0, 4), (0x16B30, 6), (0x16B40, 3), (0x16D40, 2),
    (0x16D6B, 1), (0x16F8F, 16), (0x16FE0, 1), (0x16FE3, 1), (0x16FF2, 1), (0x1AFF0, 3),
    (0x1AFF5, 6), (0x1AFFD, 1), (0x1BC9D, 1), (0x1BCA0, 3), (0x1CF00, 45), (0x1CF30, 22),
    (0x1D167, 2), (0x1D173, 15), (0x1D185, 6), (0x1D1AA, 3), (0x1D242, 2), (0x1DA00, 54),
    (0x1DA3B, 49), (0x1DA9B, 4), (0x1DAA1, 14), (0x1E000, 6), (0x1E008, 16), (0x1E01B, 6),
    (0x1E023, 1), (0x1E026, 4), (0x1E030, 61), (0x1E130, 13), (0x1E2EC, 3), (0x1E4EB, 4),
    (0x1E5EE, 1), (0x1E6EE, 1), (0x1E8D0, 6), (0x1E944, 7), (0x1F3FB, 4), (0xE0020, 95),
    (0xE0100, 239)]
  singles := [
    0x27, 0x2E, 0x3A, 0x5E, 0x60, 0xA8, 0xAD, 0xAF, 0xB4, 0x37A, 0x387, 0x559, 0x55F, 0x5BF, 0x5C7,
    0x5F4, 0x61C, 0x640, 0x670, 0x70F, 0x711, 0x7FA, 0x7FD, 0x888, 0x93A, 0x93C, 0x94D, 0x971,
    0x981, 0x9BC, 0x9CD, 0x9FE, 0xA3C, 0xA51, 0xA75, 0xABC, 0xACD, 0xB01, 0xB3C, 0xB3F, 0xB4D,
    0xB82, 0xBC0, 0xBCD, 0xC00, 0xC04, 0xC3C, 0xC81, 0xCBC, 0xCBF, 0xCC6, 0xD4D, 0xD81, 0xDCA,
    0xDD6, 0xE31, 0xEB1, 0xEC6, 0xF35, 0xF37, 0xF39, 0xFC6, 0x1082, 0x108D, 0x109D, 0x10FC, 0x17C6,
    0x17D7, 0x17DD, 0x1843, 0x18A9, 0x1932, 0x1A1B, 0x1A56, 0x1A60, 0x1A62, 0x1A7F, 0x1AA7, 0x1B34,
    0x1B3C, 0x1B42, 0x1BE6, 0x1BED, 0x1CED, 0x1CF4, 0x1D78, 0x1FBD, 0x2024, 0x2027, 0x2071, 0x207F,
    0x2D6F, 0x2D7F, 0x2E2F, 0x3005, 0x303B, 0xA015, 0xA60C, 0xA67F, 0xA770, 0xA802, 0xA806, 0xA80B,
    0xA82C, 0xA8FF, 0xA9B3, 0xA9CF, 0xAA43, 0xAA4C, 0xAA70, 0xAA7C, 0xAAB0, 0xAAC1, 0xAADD, 0xAAF6,
    0xABE5, 0xABE8, 0xABED, 0xFB1E, 0xFE13, 0xFE52, 0xFE55, 0xFEFF, 0xFF07, 0xFF0E, 0xFF1A, 0xFF3E,
    0xFF40, 0xFF70, 0xFFE3, 0x101FD, 0x102E0, 0x10A3F, 0x10D4E, 0x10D6F, 0x10EC5, 0x11001, 0x11070,
    0x110BD, 0x110C2, 0x110CD, 0x11173, 0x111CF, 0x11234, 0x1123E, 0x11241, 0x112DF, 0x11340,
    0x113CE, 0x113D0, 0x113D2, 0x11446, 0x1145E, 0x114BA, 0x1163D, 0x116AB, 0x116AD, 0x116B7,
    0x1171D, 0x1171F, 0x1193E, 0x11943, 0x119E0, 0x11A47, 0x11B60, 0x11B66, 0x11C3F, 0x11D3A,
    0x11D47, 0x11D95, 0x11D97, 0x11DD9, 0x11F40, 0x11F42, 0x11F5A, 0x16F4F, 0x1DA75, 0x1DA84,
    0x1E08F, 0x1E2AE, 0x1E6E3, 0x1E6E6, 0x1E6F5, 0x1E6FF, 0xE0001]

/-- Letters that have a case. -/
def casedCodes : CodeSet where
  ranges := [
    (0x41, 25), (0x61, 25), (0xC0, 22), (0xD8, 30), (0xF8, 194), (0x1BC, 3), (0x1C4, 207),
    (0x296, 34), (0x2C0, 1), (0x2E0, 4), (0x370, 3), (0x376, 1), (0x37A, 3), (0x388, 2),
    (0x38E, 19), (0x3A3, 82), (0x3F7, 138), (0x48A, 165), (0x531, 37), (0x560, 40), (0x10A0, 37),
    (0x10D0, 42), (0x10FC, 3), (0x13A0, 85), (0x13F8, 5), (0x1C80, 10), (0x1C90, 42), (0x1CBD, 2),
    (0x1D00, 191), (0x1E00, 277), (0x1F18, 5), (0x1F20, 37), (0x1F48, 5), (0x1F50, 7), (0x1F5F, 30),
    (0x1F80, 52), (0x1FB6, 6), (0x1FC2, 2), (0x1FC6, 6), (0x1FD0, 3), (0x1FD6, 5), (0x1FE0, 12),
    (0x1FF2, 2), (0x1FF6, 6), (0x2090, 12), (0x210A, 9), (0x2119, 4), (0x212A, 3), (0x212F, 5),
    (0x213C, 3), (0x2145, 4), (0x2160, 31), (0x2183, 1), (0x24B6, 51), (0x2C00, 228), (0x2CEB, 3),
    (0x2CF2, 1), (0x2D00, 37), (0xA640, 45), (0xA680, 29), (0xA722, 101), (0xA78B, 3), (0xA790, 76),
    (0xA7F1, 5), (0xA7F8, 2), (0xAB30, 42), (0xAB5C, 13), (0xAB70, 79), (0xFB00, 6), (0xFB13, 4),
    (0xFF21, 25), (0xFF41, 25), (0x10400, 79), (0x104B0, 35), (0x104D8, 35), (0x10570, 10),
    (0x1057C, 14), (0x1058C, 6), (0x10594, 1), (0x10597, 10), (0x105A3, 14), (0x105B3, 6),
    (0x105BB, 1), (0x10783, 2), (0x10787, 41), (0x107B2, 8), (0x10C80, 50), (0x10CC0, 50),
    (0x10D50, 21), (0x10D70, 21), (0x118A0, 63), (0x16E40, 63), (0x16EA0, 24), (0x16EBB, 24),
    (0x1D400, 84), (0x1D456, 70), (0x1D49E, 1), (0x1D4A5, 1), (0x1D4A9, 3), (0x1D4AE, 11),
    (0x1D4BD, 6), (0x1D4C5, 64), (0x1D507, 3), (0x1D50D, 7), (0x1D516, 6), (0x1D51E, 27),
    (0x1D53B, 3), (0x1D540, 4), (0x1D54A, 6), (0x1D552, 339), (0x1D6A8, 24), (0x1D6C2, 24),
    (0x1D6DC, 30), (0x1D6FC, 24), (0x1D716, 30), (0x1D736, 24), (0x1D750, 30), (0x1D770, 24),
    (0x1D78A, 30), (0x1D7AA, 24), (0x1D7C4, 7), (0x1DF00, 9), (0x1DF0B, 19), (0x1DF25, 5),
    (0x1E030, 61), (0x1E900, 67), (0x1F130, 25), (0x1F150, 25), (0x1F170, 25)]
  singles := [
    0xAA, 0xB5, 0xBA, 0x345, 0x37F, 0x386, 0x38C, 0x10C7, 0x10CD, 0x1F59, 0x1F5B, 0x1F5D, 0x1FBE,
    0x2071, 0x207F, 0x2102, 0x2107, 0x2115, 0x2124, 0x2126, 0x2128, 0x2139, 0x214E, 0x2D27, 0x2D2D,
    0x10780, 0x1D4A2, 0x1D4BB, 0x1D546]

/-- The capital form of a character. -/
def upperChar (c : Char) : Text :=
  if c.toNat < 0x80 then [c.toUpper]
  else match upperSpecials.find? (·.1 == c.toNat) with
    | some entry => entry.2.map Char.ofNat
    | none => [(upperRuns.findSome? (·.map? c.toNat)).getD c]

/-- The small form of a character, its neighbours left aside. -/
def lowerChar (c : Char) : Text :=
  if c.toNat < 0x80 then [c.toLower]
  else if c.toNat == 0x130 then [Char.ofNat 0x69, Char.ofNat 0x307]
  else [(lowerRuns.findSome? (·.map? c.toNat)).getD c]

namespace Text

/-- The first character that counts is a letter with case. -/
def meetsCased (t : Text) : Bool :=
  match t.dropWhile (caseIgnorableCodes.has ·.toNat) with
  | [] => false
  | c :: _ => casedCodes.has c.toNat

/-- A text in capitals. -/
def toUpper (t : Text) : Text := t.flatMap upperChar

/-- Small letters, with the characters already passed at hand, nearest first. -/
def lowerFrom (passed : Text) : Text → Text
  | [] => []
  | c :: cs =>
    let here :=
      if c.toNat == 0x3A3 then
        [Char.ofNat (if meetsCased passed && !meetsCased cs then 0x3C2 else 0x3C3)]
      else lowerChar c
    here ++ lowerFrom (c :: passed) cs

/-- A text in small letters. -/
def toLower (t : Text) : Text := lowerFrom [] t

/-- A text with its first letter in capitals. -/
def capitalize : Text → Text
  | [] => []
  | c :: cs => upperChar c ++ cs

/-- Equal up to the case of ASCII letters. -/
def sameLetters (a b : Text) : Bool := a.map Char.toLower == b.map Char.toLower

end Text

/-- Whether `c` is the small ASCII letter `k` in any case. The long s and the Kelvin sign fold to
the letters s and k. -/
def foldsTo (k c : Char) : Bool :=
  c.toLower == k || (k == 's' && c.toNat == 0x17F) || (k == 'k' && c.toNat == 0x212A)

namespace Text

/-- The rest of a text after a keyword in any case; the keyword is given in small letters. -/
def afterFold? : Text → Text → Option Text
  | [], t => some t
  | _ :: _, [] => none
  | k :: ks, c :: cs => if foldsTo k c then afterFold? ks cs else none

end Text
end BladeView
