import Reflow.Text.Letter
import Reflow.Text.Mark
import Reflow.Text.Numeral
import Reflow.Text.Punctuation

/-!
Characters that can be shown as they are, after Unicode 14: assigned, neither a control nor a format
character, and no separator other than the space.
-/

namespace Reflow

/-- Code points of the symbols: the general categories Sc, Sk, Sm and So. -/
def symbolRanges : Ranges :=
  [(0x24, 1), (0x2B, 1), (0x3C, 3), (0x5E, 1), (0x60, 1), (0x7C, 1), (0x7E, 1), (0xA2, 5),
   (0xA8, 2), (0xAC, 1), (0xAE, 4), (0xB4, 1), (0xB8, 1), (0xD7, 1), (0xF7, 1), (0x2C2, 4),
   (0x2D2, 14), (0x2E5, 7), (0x2ED, 1), (0x2EF, 17), (0x375, 1), (0x384, 2), (0x3F6, 1), (0x482, 1),
   (0x58D, 3), (0x606, 3), (0x60B, 1), (0x60E, 2), (0x6DE, 1), (0x6E9, 1), (0x6FD, 2), (0x7F6, 1),
   (0x7FE, 2), (0x888, 1), (0x9F2, 2), (0x9FA, 2), (0xAF1, 1), (0xB70, 1), (0xBF3, 8), (0xC7F, 1),
   (0xD4F, 1), (0xD79, 1), (0xE3F, 1), (0xF01, 3), (0xF13, 1), (0xF15, 3), (0xF1A, 6), (0xF34, 1),
   (0xF36, 1), (0xF38, 1), (0xFBE, 8), (0xFC7, 6), (0xFCE, 2), (0xFD5, 4), (0x109E, 2),
   (0x1390, 10), (0x166D, 1), (0x17DB, 1), (0x1940, 1), (0x19DE, 34), (0x1B61, 10), (0x1B74, 9),
   (0x1FBD, 1), (0x1FBF, 3), (0x1FCD, 3), (0x1FDD, 3), (0x1FED, 3), (0x1FFD, 2), (0x2044, 1),
   (0x2052, 1), (0x207A, 3), (0x208A, 3), (0x20A0, 33), (0x2100, 2), (0x2103, 4), (0x2108, 2),
   (0x2114, 1), (0x2116, 3), (0x211E, 6), (0x2125, 1), (0x2127, 1), (0x2129, 1), (0x212E, 1),
   (0x213A, 2), (0x2140, 5), (0x214A, 4), (0x214F, 1), (0x218A, 2), (0x2190, 376), (0x230C, 29),
   (0x232B, 252), (0x2440, 11), (0x249C, 78), (0x2500, 616), (0x2794, 49), (0x27C7, 31),
   (0x27F0, 403), (0x2999, 63), (0x29DC, 32), (0x29FE, 374), (0x2B76, 32), (0x2B97, 105),
   (0x2CE5, 6), (0x2E50, 2), (0x2E80, 26), (0x2E9B, 89), (0x2F00, 214), (0x2FF0, 12), (0x3004, 1),
   (0x3012, 2), (0x3020, 1), (0x3036, 2), (0x303E, 2), (0x309B, 2), (0x3190, 2), (0x3196, 10),
   (0x31C0, 36), (0x3200, 31), (0x322A, 30), (0x3250, 1), (0x3260, 32), (0x328A, 39), (0x32C0, 320),
   (0x4DC0, 64), (0xA490, 55), (0xA700, 23), (0xA720, 2), (0xA789, 2), (0xA828, 4), (0xA836, 4),
   (0xAA77, 3), (0xAB5B, 1), (0xAB6A, 2), (0xFB29, 1), (0xFBB2, 17), (0xFD40, 16), (0xFDCF, 1),
   (0xFDFC, 4), (0xFE62, 1), (0xFE64, 3), (0xFE69, 1), (0xFF04, 1), (0xFF0B, 1), (0xFF1C, 3),
   (0xFF3E, 1), (0xFF40, 1), (0xFF5C, 1), (0xFF5E, 1), (0xFFE0, 7), (0xFFE8, 7), (0xFFFC, 2),
   (0x10137, 9), (0x10179, 17), (0x1018C, 3), (0x10190, 13), (0x101A0, 1), (0x101D0, 45),
   (0x10877, 2), (0x10AC8, 1), (0x1173F, 1), (0x11FD5, 29), (0x16B3C, 4), (0x16B45, 1),
   (0x1BC9C, 1), (0x1CF50, 116), (0x1D000, 246), (0x1D100, 39), (0x1D129, 60), (0x1D16A, 3),
   (0x1D183, 2), (0x1D18C, 30), (0x1D1AE, 61), (0x1D200, 66), (0x1D245, 1), (0x1D300, 87),
   (0x1D6C1, 1), (0x1D6DB, 1), (0x1D6FB, 1), (0x1D715, 1), (0x1D735, 1), (0x1D74F, 1), (0x1D76F, 1),
   (0x1D789, 1), (0x1D7A9, 1), (0x1D7C3, 1), (0x1D800, 512), (0x1DA37, 4), (0x1DA6D, 8),
   (0x1DA76, 14), (0x1DA85, 2), (0x1E14F, 1), (0x1E2FF, 1), (0x1ECAC, 1), (0x1ECB0, 1),
   (0x1ED2E, 1), (0x1EEF0, 2), (0x1F000, 44), (0x1F030, 100), (0x1F0A0, 15), (0x1F0B1, 15),
   (0x1F0C1, 15), (0x1F0D1, 37), (0x1F10D, 161), (0x1F1E6, 29), (0x1F210, 44), (0x1F240, 9),
   (0x1F250, 2), (0x1F260, 6), (0x1F300, 984), (0x1F6DD, 16), (0x1F6F0, 13), (0x1F700, 116),
   (0x1F780, 89), (0x1F7E0, 12), (0x1F7F0, 1), (0x1F800, 12), (0x1F810, 56), (0x1F850, 10),
   (0x1F860, 40), (0x1F890, 30), (0x1F8B0, 2), (0x1F900, 340), (0x1FA60, 14), (0x1FA70, 5),
   (0x1FA78, 5), (0x1FA80, 7), (0x1FA90, 29), (0x1FAB0, 11), (0x1FAC0, 6), (0x1FAD0, 10),
   (0x1FAE0, 8), (0x1FAF0, 7), (0x1FB00, 147), (0x1FB94, 55)]

/-- Code points of the combining marks that are in Unicode 15.1 and not in Unicode 14. -/
def newMarkRanges : Ranges :=
  [(0xCF3, 1), (0xECE, 1), (0x10EFD, 3), (0x11241, 1), (0x11F00, 2), (0x11F03, 1), (0x11F34, 7),
   (0x11F3E, 5), (0x13440, 1), (0x13447, 15), (0x1E08F, 1), (0x1E4EC, 4)]

def isPrintable (c : Char) : Bool :=
  c == ' ' || isLetter c || isNumeral c || punctuationRanges.contains c.toNat ||
    symbolRanges.contains c.toNat || isMark c && !newMarkRanges.contains c.toNat

end Reflow
