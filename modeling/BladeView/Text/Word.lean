import BladeView.Text.Blank

/-!
# Letters, digits and word characters

Two families of character classes are used side by side. Names of directives, variables and
functions are made of ASCII letters, digits, `_` and `$`; the first section holds those classes.
Loop headers, attribute names and keyword boundaries follow the wider notion of a word: letters
of every script, marks, decimal digits, connecting punctuation and the two joiners.
-/
namespace BladeView

/-! ## Names -/

/-- A name starts with an ASCII letter or an underscore. -/
def isNameStart (c : Char) : Bool := c.isAlpha || c == '_'

/-- A name goes on with ASCII letters, digits, underscores and dollar signs. -/
def isNameChar (c : Char) : Bool := c.isAlphanum || c == '_' || c == '$'

/-- The characters of a directive's word: a name without dollar signs. -/
def isPlainChar (c : Char) : Bool := c.isAlphanum || c == '_'

/-! ## Words -/

/-- A set of code points: ranges, given by their first code point and the number of those that
follow it, and code points that stand alone. -/
structure CodeSet where
  ranges : List (Nat × Nat)
  singles : List Nat

def CodeSet.has (codes : CodeSet) (n : Nat) : Bool :=
  codes.singles.contains n || codes.ranges.any fun r => r.1 ≤ n && n ≤ r.1 + r.2

/-- The word characters beyond ASCII: letters, marks, digits, letter numbers and connectors. -/
def wordCodes : CodeSet where
  ranges := [
    (0xC0, 22), (0xD8, 30), (0xF8, 457), (0x2C6, 11), (0x2E0, 4), (0x300, 116), (0x376, 1),
    (0x37A, 3), (0x388, 2), (0x38E, 19), (0x3A3, 82), (0x3F7, 138), (0x483, 172), (0x531, 37),
    (0x560, 40), (0x591, 44), (0x5C1, 1), (0x5C4, 1), (0x5D0, 26), (0x5EF, 3), (0x610, 10),
    (0x620, 73), (0x66E, 101), (0x6D5, 7), (0x6DF, 9), (0x6EA, 18), (0x710, 58), (0x74D, 100),
    (0x7C0, 53), (0x800, 45), (0x840, 27), (0x860, 10), (0x870, 23), (0x889, 5), (0x897, 74),
    (0x8E3, 128), (0x966, 9), (0x971, 18), (0x985, 7), (0x98F, 1), (0x993, 21), (0x9AA, 6),
    (0x9B6, 3), (0x9BC, 8), (0x9C7, 1), (0x9CB, 3), (0x9DC, 1), (0x9DF, 4), (0x9E6, 11), (0xA01, 2),
    (0xA05, 5), (0xA0F, 1), (0xA13, 21), (0xA2A, 6), (0xA32, 1), (0xA35, 1), (0xA38, 1), (0xA3E, 4),
    (0xA47, 1), (0xA4B, 2), (0xA59, 3), (0xA66, 15), (0xA81, 2), (0xA85, 8), (0xA8F, 2),
    (0xA93, 21), (0xAAA, 6), (0xAB2, 1), (0xAB5, 4), (0xABC, 9), (0xAC7, 2), (0xACB, 2), (0xAE0, 3),
    (0xAE6, 9), (0xAF9, 6), (0xB01, 2), (0xB05, 7), (0xB0F, 1), (0xB13, 21), (0xB2A, 6), (0xB32, 1),
    (0xB35, 4), (0xB3C, 8), (0xB47, 1), (0xB4B, 2), (0xB55, 2), (0xB5C, 1), (0xB5F, 4), (0xB66, 9),
    (0xB82, 1), (0xB85, 5), (0xB8E, 2), (0xB92, 3), (0xB99, 1), (0xB9E, 1), (0xBA3, 1), (0xBA8, 2),
    (0xBAE, 11), (0xBBE, 4), (0xBC6, 2), (0xBCA, 3), (0xBE6, 9), (0xC00, 12), (0xC0E, 2),
    (0xC12, 22), (0xC2A, 15), (0xC3C, 8), (0xC46, 2), (0xC4A, 3), (0xC55, 1), (0xC58, 2),
    (0xC60, 3), (0xC66, 9), (0xC80, 3), (0xC85, 7), (0xC8E, 2), (0xC92, 22), (0xCAA, 9), (0xCB5, 4),
    (0xCBC, 8), (0xCC6, 2), (0xCCA, 3), (0xCD5, 1), (0xCDD, 1), (0xCE0, 3), (0xCE6, 9), (0xCF1, 2),
    (0xD00, 12), (0xD0E, 2), (0xD12, 50), (0xD46, 2), (0xD4A, 4), (0xD54, 3), (0xD5F, 4),
    (0xD66, 9), (0xD7A, 5), (0xD81, 2), (0xD85, 17), (0xD9A, 23), (0xDB3, 8), (0xDC0, 6),
    (0xDCF, 5), (0xDD8, 7), (0xDE6, 9), (0xDF2, 1), (0xE01, 57), (0xE40, 14), (0xE50, 9),
    (0xE81, 1), (0xE86, 4), (0xE8C, 23), (0xEA7, 22), (0xEC0, 4), (0xEC8, 6), (0xED0, 9),
    (0xEDC, 3), (0xF18, 1), (0xF20, 9), (0xF3E, 9), (0xF49, 35), (0xF71, 19), (0xF86, 17),
    (0xF99, 35), (0x1000, 73), (0x1050, 77), (0x10A0, 37), (0x10D0, 42), (0x10FC, 332), (0x124A, 3),
    (0x1250, 6), (0x125A, 3), (0x1260, 40), (0x128A, 3), (0x1290, 32), (0x12B2, 3), (0x12B8, 6),
    (0x12C2, 3), (0x12C8, 14), (0x12D8, 56), (0x1312, 3), (0x1318, 66), (0x135D, 2), (0x1380, 15),
    (0x13A0, 85), (0x13F8, 5), (0x1401, 619), (0x166F, 16), (0x1681, 25), (0x16A0, 74),
    (0x16EE, 10), (0x1700, 21), (0x171F, 21), (0x1740, 19), (0x1760, 12), (0x176E, 2), (0x1772, 1),
    (0x1780, 83), (0x17DC, 1), (0x17E0, 9), (0x180B, 2), (0x180F, 10), (0x1820, 88), (0x1880, 42),
    (0x18B0, 69), (0x1900, 30), (0x1920, 11), (0x1930, 11), (0x1946, 39), (0x1970, 4), (0x1980, 43),
    (0x19B0, 25), (0x19D0, 9), (0x1A00, 27), (0x1A20, 62), (0x1A60, 28), (0x1A7F, 10), (0x1A90, 9),
    (0x1AB0, 30), (0x1B00, 76), (0x1B50, 9), (0x1B6B, 8), (0x1B80, 115), (0x1C00, 55), (0x1C40, 9),
    (0x1C4D, 48), (0x1C80, 10), (0x1C90, 42), (0x1CBD, 2), (0x1CD0, 2), (0x1CD4, 38), (0x1D00, 533),
    (0x1F18, 5), (0x1F20, 37), (0x1F48, 5), (0x1F50, 7), (0x1F5F, 30), (0x1F80, 52), (0x1FB6, 6),
    (0x1FC2, 2), (0x1FC6, 6), (0x1FD0, 3), (0x1FD6, 5), (0x1FE0, 12), (0x1FF2, 2), (0x1FF6, 6),
    (0x200C, 1), (0x203F, 1), (0x2090, 12), (0x20D0, 32), (0x210A, 9), (0x2119, 4), (0x212A, 3),
    (0x212F, 10), (0x213C, 3), (0x2145, 4), (0x2160, 40), (0x24B6, 51), (0x2C00, 228), (0x2CEB, 8),
    (0x2D00, 37), (0x2D30, 55), (0x2D7F, 23), (0x2DA0, 6), (0x2DA8, 6), (0x2DB0, 6), (0x2DB8, 6),
    (0x2DC0, 6), (0x2DC8, 6), (0x2DD0, 6), (0x2DD8, 6), (0x2DE0, 31), (0x3005, 2), (0x3021, 14),
    (0x3031, 4), (0x3038, 4), (0x3041, 85), (0x3099, 1), (0x309D, 2), (0x30A1, 89), (0x30FC, 3),
    (0x3105, 42), (0x3131, 93), (0x31A0, 31), (0x31F0, 15), (0x3400, 6591), (0x4E00, 22156),
    (0xA4D0, 45), (0xA500, 268), (0xA610, 27), (0xA640, 50), (0xA674, 9), (0xA67F, 114),
    (0xA717, 8), (0xA722, 102), (0xA78B, 66), (0xA7D0, 1), (0xA7D5, 7), (0xA7F2, 53), (0xA840, 51),
    (0xA880, 69), (0xA8D0, 9), (0xA8E0, 23), (0xA8FD, 48), (0xA930, 35), (0xA960, 28), (0xA980, 64),
    (0xA9CF, 10), (0xA9E0, 30), (0xAA00, 54), (0xAA40, 13), (0xAA50, 9), (0xAA60, 22), (0xAA7A, 72),
    (0xAADB, 2), (0xAAE0, 15), (0xAAF2, 4), (0xAB01, 5), (0xAB09, 5), (0xAB11, 5), (0xAB20, 6),
    (0xAB28, 6), (0xAB30, 42), (0xAB5C, 13), (0xAB70, 122), (0xABEC, 1), (0xABF0, 9),
    (0xAC00, 11171), (0xD7B0, 22), (0xD7CB, 48), (0xF900, 365), (0xFA70, 105), (0xFB00, 6),
    (0xFB13, 4), (0xFB1D, 11), (0xFB2A, 12), (0xFB38, 4), (0xFB40, 1), (0xFB43, 1), (0xFB46, 107),
    (0xFBD3, 362), (0xFD50, 63), (0xFD92, 53), (0xFDF0, 11), (0xFE00, 15), (0xFE20, 15),
    (0xFE33, 1), (0xFE4D, 2), (0xFE70, 4), (0xFE76, 134), (0xFF10, 9), (0xFF21, 25), (0xFF41, 25),
    (0xFF66, 88), (0xFFC2, 5), (0xFFCA, 5), (0xFFD2, 5), (0xFFDA, 2), (0x10000, 11), (0x1000D, 25),
    (0x10028, 18), (0x1003C, 1), (0x1003F, 14), (0x10050, 13), (0x10080, 122), (0x10140, 52),
    (0x10280, 28), (0x102A0, 48), (0x10300, 31), (0x1032D, 29), (0x10350, 42), (0x10380, 29),
    (0x103A0, 35), (0x103C8, 7), (0x103D1, 4), (0x10400, 157), (0x104A0, 9), (0x104B0, 35),
    (0x104D8, 35), (0x10500, 39), (0x10530, 51), (0x10570, 10), (0x1057C, 14), (0x1058C, 6),
    (0x10594, 1), (0x10597, 10), (0x105A3, 14), (0x105B3, 6), (0x105BB, 1), (0x105C0, 51),
    (0x10600, 310), (0x10740, 21), (0x10760, 7), (0x10780, 5), (0x10787, 41), (0x107B2, 8),
    (0x10800, 5), (0x1080A, 43), (0x10837, 1), (0x1083F, 22), (0x10860, 22), (0x10880, 30),
    (0x108E0, 18), (0x108F4, 1), (0x10900, 21), (0x10920, 25), (0x10980, 55), (0x109BE, 1),
    (0x10A00, 3), (0x10A05, 1), (0x10A0C, 7), (0x10A15, 2), (0x10A19, 28), (0x10A38, 2),
    (0x10A60, 28), (0x10A80, 28), (0x10AC0, 7), (0x10AC9, 29), (0x10B00, 53), (0x10B40, 21),
    (0x10B60, 18), (0x10B80, 17), (0x10C00, 72), (0x10C80, 50), (0x10CC0, 50), (0x10D00, 39),
    (0x10D30, 9), (0x10D40, 37), (0x10D69, 4), (0x10D6F, 22), (0x10E80, 41), (0x10EAB, 1),
    (0x10EB0, 1), (0x10EC2, 2), (0x10EFC, 32), (0x10F30, 32), (0x10F70, 21), (0x10FB0, 20),
    (0x10FE0, 22), (0x11000, 70), (0x11066, 15), (0x1107F, 59), (0x110D0, 24), (0x110F0, 9),
    (0x11100, 52), (0x11136, 9), (0x11144, 3), (0x11150, 35), (0x11180, 68), (0x111C9, 3),
    (0x111CE, 12), (0x11200, 17), (0x11213, 36), (0x1123E, 3), (0x11280, 6), (0x1128A, 3),
    (0x1128F, 14), (0x1129F, 9), (0x112B0, 58), (0x112F0, 9), (0x11300, 3), (0x11305, 7),
    (0x1130F, 1), (0x11313, 21), (0x1132A, 6), (0x11332, 1), (0x11335, 4), (0x1133B, 9),
    (0x11347, 1), (0x1134B, 2), (0x1135D, 6), (0x11366, 6), (0x11370, 4), (0x11380, 9),
    (0x11390, 37), (0x113B7, 9), (0x113C7, 3), (0x113CC, 7), (0x113E1, 1), (0x11400, 74),
    (0x11450, 9), (0x1145E, 3), (0x11480, 69), (0x114D0, 9), (0x11580, 53), (0x115B8, 8),
    (0x115D8, 5), (0x11600, 64), (0x11650, 9), (0x11680, 56), (0x116C0, 9), (0x116D0, 19),
    (0x11700, 26), (0x1171D, 14), (0x11730, 9), (0x11740, 6), (0x11800, 58), (0x118A0, 73),
    (0x118FF, 7), (0x1190C, 7), (0x11915, 1), (0x11918, 29), (0x11937, 1), (0x1193B, 8),
    (0x11950, 9), (0x119A0, 7), (0x119AA, 45), (0x119DA, 7), (0x119E3, 1), (0x11A00, 62),
    (0x11A50, 73), (0x11AB0, 72), (0x11BC0, 32), (0x11BF0, 9), (0x11C00, 8), (0x11C0A, 44),
    (0x11C38, 8), (0x11C50, 9), (0x11C72, 29), (0x11C92, 21), (0x11CA9, 13), (0x11D00, 6),
    (0x11D08, 1), (0x11D0B, 43), (0x11D3C, 1), (0x11D3F, 8), (0x11D50, 9), (0x11D60, 5),
    (0x11D67, 1), (0x11D6A, 36), (0x11D90, 1), (0x11D93, 5), (0x11DA0, 9), (0x11EE0, 22),
    (0x11F00, 16), (0x11F12, 40), (0x11F3E, 4), (0x11F50, 10), (0x12000, 921), (0x12400, 110),
    (0x12480, 195), (0x12F90, 96), (0x13000, 1071), (0x13440, 21), (0x13460, 3994), (0x14400, 582),
    (0x16100, 57), (0x16800, 568), (0x16A40, 30), (0x16A60, 9), (0x16A70, 78), (0x16AC0, 9),
    (0x16AD0, 29), (0x16AF0, 4), (0x16B00, 54), (0x16B40, 3), (0x16B50, 9), (0x16B63, 20),
    (0x16B7D, 18), (0x16D40, 44), (0x16D70, 9), (0x16E40, 63), (0x16F00, 74), (0x16F4F, 56),
    (0x16F8F, 16), (0x16FE0, 1), (0x16FE3, 1), (0x16FF0, 1), (0x17000, 6135), (0x18800, 1237),
    (0x18CFF, 9), (0x1AFF0, 3), (0x1AFF5, 6), (0x1AFFD, 1), (0x1B000, 290), (0x1B150, 2),
    (0x1B164, 3), (0x1B170, 395), (0x1BC00, 106), (0x1BC70, 12), (0x1BC80, 8), (0x1BC90, 9),
    (0x1BC9D, 1), (0x1CCF0, 9), (0x1CF00, 45), (0x1CF30, 22), (0x1D165, 4), (0x1D16D, 5),
    (0x1D17B, 7), (0x1D185, 6), (0x1D1AA, 3), (0x1D242, 2), (0x1D400, 84), (0x1D456, 70),
    (0x1D49E, 1), (0x1D4A5, 1), (0x1D4A9, 3), (0x1D4AE, 11), (0x1D4BD, 6), (0x1D4C5, 64),
    (0x1D507, 3), (0x1D50D, 7), (0x1D516, 6), (0x1D51E, 27), (0x1D53B, 3), (0x1D540, 4),
    (0x1D54A, 6), (0x1D552, 339), (0x1D6A8, 24), (0x1D6C2, 24), (0x1D6DC, 30), (0x1D6FC, 24),
    (0x1D716, 30), (0x1D736, 24), (0x1D750, 30), (0x1D770, 24), (0x1D78A, 30), (0x1D7AA, 24),
    (0x1D7C4, 7), (0x1D7CE, 49), (0x1DA00, 54), (0x1DA3B, 49), (0x1DA9B, 4), (0x1DAA1, 14),
    (0x1DF00, 30), (0x1DF25, 5), (0x1E000, 6), (0x1E008, 16), (0x1E01B, 6), (0x1E023, 1),
    (0x1E026, 4), (0x1E030, 61), (0x1E100, 44), (0x1E130, 13), (0x1E140, 9), (0x1E290, 30),
    (0x1E2C0, 57), (0x1E4D0, 41), (0x1E5D0, 42), (0x1E7E0, 6), (0x1E7E8, 3), (0x1E7ED, 1),
    (0x1E7F0, 14), (0x1E800, 196), (0x1E8D0, 6), (0x1E900, 75), (0x1E950, 9), (0x1EE00, 3),
    (0x1EE05, 26), (0x1EE21, 1), (0x1EE29, 9), (0x1EE34, 3), (0x1EE4D, 2), (0x1EE51, 1),
    (0x1EE61, 1), (0x1EE67, 3), (0x1EE6C, 6), (0x1EE74, 3), (0x1EE79, 3), (0x1EE80, 9),
    (0x1EE8B, 16), (0x1EEA1, 2), (0x1EEA5, 4), (0x1EEAB, 16), (0x1F130, 25), (0x1F150, 25),
    (0x1F170, 25), (0x1FBF0, 9), (0x20000, 42719), (0x2A700, 4153), (0x2B740, 221), (0x2B820, 5761),
    (0x2CEB0, 7472), (0x2EBF0, 621), (0x2F800, 541), (0x30000, 4938), (0x31350, 4191),
    (0xE0100, 239)]
  singles := [
    0xAA, 0xB5, 0xBA, 0x2EC, 0x2EE, 0x37F, 0x386, 0x38C, 0x559, 0x5BF, 0x5C7, 0x6FF, 0x7FA, 0x7FD,
    0x9B2, 0x9D7, 0x9FC, 0x9FE, 0xA3C, 0xA51, 0xA5E, 0xAD0, 0xB71, 0xB9C, 0xBD0, 0xBD7, 0xC5D,
    0xDBD, 0xDCA, 0xDD6, 0xE84, 0xEA5, 0xEC6, 0xF00, 0xF35, 0xF37, 0xF39, 0xFC6, 0x10C7, 0x10CD,
    0x1258, 0x12C0, 0x17D7, 0x1AA7, 0x1F59, 0x1F5B, 0x1F5D, 0x1FBE, 0x2054, 0x2071, 0x207F, 0x2102,
    0x2107, 0x2115, 0x2124, 0x2126, 0x2128, 0x214E, 0x2D27, 0x2D2D, 0x2D6F, 0x2E2F, 0xA7D3, 0xA82C,
    0xA8FB, 0xFB3E, 0xFF3F, 0x101FD, 0x102E0, 0x10808, 0x1083C, 0x10A3F, 0x10F27, 0x110C2, 0x11176,
    0x111DC, 0x11288, 0x11350, 0x11357, 0x1138B, 0x1138E, 0x113C2, 0x113C5, 0x114C7, 0x11644,
    0x11909, 0x11A47, 0x11A9D, 0x11D3A, 0x11FB0, 0x1B132, 0x1B155, 0x1D4A2, 0x1D4BB, 0x1D546,
    0x1DA75, 0x1DA84, 0x1E08F, 0x1E14E, 0x1EE24, 0x1EE27, 0x1EE39, 0x1EE3B, 0x1EE42, 0x1EE47,
    0x1EE49, 0x1EE4B, 0x1EE54, 0x1EE57, 0x1EE59, 0x1EE5B, 0x1EE5D, 0x1EE5F, 0x1EE64, 0x1EE7E]

/-- A character of a word. ASCII is decided first, without the table. -/
def isWordChar (c : Char) : Bool :=
  if c.toNat < 0x80 then c.isAlphanum || c == '_' else wordCodes.has c.toNat

/-- The zeros of the decimal digit blocks beyond ASCII; each block counts up to nine. -/
def digitZeros : List Nat :=
  [
   0x660, 0x6F0, 0x7C0, 0x966, 0x9E6, 0xA66, 0xAE6, 0xB66, 0xBE6, 0xC66,
   0xCE6, 0xD66, 0xDE6, 0xE50, 0xED0, 0xF20, 0x1040, 0x1090, 0x17E0, 0x1810,
   0x1946, 0x19D0, 0x1A80, 0x1A90, 0x1B50, 0x1BB0, 0x1C40, 0x1C50, 0xA620, 0xA8D0,
   0xA900, 0xA9D0, 0xA9F0, 0xAA50, 0xABF0, 0xFF10, 0x104A0, 0x10D30, 0x10D40, 0x11066,
   0x110F0, 0x11136, 0x111D0, 0x112F0, 0x11450, 0x114D0, 0x11650, 0x116C0, 0x116D0, 0x116DA,
   0x11730, 0x118E0, 0x11950, 0x11BF0, 0x11C50, 0x11D50, 0x11DA0, 0x11F50, 0x16130, 0x16A60,
   0x16AC0, 0x16B50, 0x16D70, 0x1CCF0, 0x1D7CE, 0x1D7D8, 0x1D7E2, 0x1D7EC, 0x1D7F6, 0x1E140,
   0x1E2F0, 0x1E4F0, 0x1E5F1, 0x1E950, 0x1FBF0]

/-- A decimal digit of any script. -/
def isDigitChar (c : Char) : Bool :=
  if c.toNat < 0x80 then c.isDigit else digitZeros.any fun z => z ≤ c.toNat && c.toNat ≤ z + 9

namespace Text

/-- The text does not go on with a word character, so a word that stands before it ends here. -/
def endsWord : Text → Bool
  | [] => true
  | c :: _ => !isWordChar c

/-- The name characters at the front of a text. -/
def word (t : Text) : Text := t.takeWhile isPlainChar

end Text
end BladeView
