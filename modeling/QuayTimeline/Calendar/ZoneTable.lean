import QuayTimeline.Calendar.Zone

/-! # The table of named zones

Some zones of the time zone database by their names, with the changes of their clocks. Commands
take the look-up of names as a parameter; this table is one that a program may be run with.
In most of them two offsets take turns, so a zone is a list of the moments of change
and the two offsets. The European rule is computed: clocks go forward on the last
Sunday of March and back on the last Sunday of October, at one o'clock universal
time, up to the year 2099. -/

namespace QuayTimeline

namespace ZoneTable

/-- The second of a universal date, hour and minute. -/
def utc (year : Int) (month dayOfMonth hour minute : Nat) : Int :=
  CivilDate.dayNumber ⟨year, month, dayOfMonth⟩ * secondsPerDay + hour * 3600 + minute * 60

/-- Changes at which two offsets take turns, the first of them at the first moment. -/
def alternate (a b : Offset) : List Int → List ClockChange
  | [] => []
  | second :: seconds => ⟨second, a⟩ :: alternate b a seconds

/-- The number of the last Sunday up to a day; 1 January 1970 was a Thursday. -/
def sundayUpTo (number : Int) : Int :=
  number - (number + 4) % 7

/-- One o'clock universal time on the last Sunday of a month of 31 days. -/
def lastSundayAtOne (year : Int) (month : Nat) : Int :=
  sundayUpTo (CivilDate.dayNumber ⟨year, month, 31⟩) * secondsPerDay + 3600

/-- The changes of the European rule from 1996 to 2099. -/
def europeanRule (standard summer : Offset) : List ClockChange :=
  alternate summer standard <|
    (List.range 104).flatMap fun (n : Nat) =>
      [lastSundayAtOne (1996 + n) 3, lastSundayAtOne (1996 + n) 10]

def universal : Zone := .fixed (.east 0)

/-- Finland: local mean time until 1921, summer time in 1942 and from 1981 on. -/
def helsinki : Zone where
  initial := .east 5989
  changes := ⟨utc 1921 4 30 22 20 + 11, .east 7200⟩ :: alternate (.east 10800) (.east 7200)
    [utc 1942 4 2 22 0, utc 1942 10 3 22 0, utc 1981 3 29 0 0, utc 1981 9 27 0 0,
     utc 1982 3 28 0 0, utc 1982 9 26 0 0, utc 1983 3 27 1 0, utc 1983 9 25 1 0,
     utc 1984 3 25 1 0, utc 1984 9 30 1 0, utc 1985 3 31 1 0, utc 1985 9 29 1 0,
     utc 1986 3 30 1 0, utc 1986 9 28 1 0, utc 1987 3 29 1 0, utc 1987 9 27 1 0,
     utc 1988 3 27 1 0, utc 1988 9 25 1 0, utc 1989 3 26 1 0, utc 1989 9 24 1 0,
     utc 1990 3 25 1 0, utc 1990 9 30 1 0, utc 1991 3 31 1 0, utc 1991 9 29 1 0,
     utc 1992 3 29 1 0, utc 1992 9 27 1 0, utc 1993 3 28 1 0, utc 1993 9 26 1 0,
     utc 1994 3 27 1 0, utc 1994 9 25 1 0, utc 1995 3 26 1 0, utc 1995 9 24 1 0]
    ++ europeanRule (.east 7200) (.east 10800)

/-- Sweden, from 1996 on. -/
def stockholm : Zone where
  initial := .east 3600
  changes := europeanRule (.east 3600) (.east 7200)

/-- Nepal, whose offset was last moved at the end of 1985. -/
def kathmandu : Zone where
  initial := .east 20476
  changes := alternate (.east 19800) (.east 20700)
    [utc 1919 12 31 18 18 + 44, utc 1985 12 31 18 30]

/-- Chile, from 2010 to 2030. -/
def santiago : Zone where
  initial := .east (-10800)
  changes := alternate (.east (-14400)) (.east (-10800))
    [utc 2010 4 4 3 0, utc 2010 10 10 4 0, utc 2011 5 8 3 0, utc 2011 8 21 4 0, utc 2012 4 29 3 0,
     utc 2012 9 2 4 0, utc 2013 4 28 3 0, utc 2013 9 8 4 0, utc 2014 4 27 3 0, utc 2014 9 7 4 0,
     utc 2016 5 15 3 0, utc 2016 8 14 4 0, utc 2017 5 14 3 0, utc 2017 8 13 4 0,
     utc 2018 5 13 3 0, utc 2018 8 12 4 0, utc 2019 4 7 3 0, utc 2019 9 8 4 0, utc 2020 4 5 3 0,
     utc 2020 9 6 4 0, utc 2021 4 4 3 0, utc 2021 9 5 4 0, utc 2022 4 3 3 0, utc 2022 9 11 4 0,
     utc 2023 4 2 3 0, utc 2023 9 3 4 0, utc 2024 4 7 3 0, utc 2024 9 8 4 0, utc 2025 4 6 3 0,
     utc 2025 9 7 4 0, utc 2026 4 5 3 0, utc 2026 9 6 4 0, utc 2027 4 4 3 0, utc 2027 9 5 4 0,
     utc 2028 4 2 3 0, utc 2028 9 3 4 0, utc 2029 4 8 3 0, utc 2029 9 2 4 0, utc 2030 4 7 3 0,
     utc 2030 9 8 4 0]

/-- Cuba, from 2010 to 2030. -/
def havana : Zone where
  initial := .east (-18000)
  changes := alternate (.east (-14400)) (.east (-18000))
    [utc 2010 3 14 5 0, utc 2010 10 31 5 0, utc 2011 3 20 5 0, utc 2011 11 13 5 0,
     utc 2012 4 1 5 0, utc 2012 11 4 5 0, utc 2013 3 10 5 0, utc 2013 11 3 5 0, utc 2014 3 9 5 0,
     utc 2014 11 2 5 0, utc 2015 3 8 5 0, utc 2015 11 1 5 0, utc 2016 3 13 5 0, utc 2016 11 6 5 0,
     utc 2017 3 12 5 0, utc 2017 11 5 5 0, utc 2018 3 11 5 0, utc 2018 11 4 5 0,
     utc 2019 3 10 5 0, utc 2019 11 3 5 0, utc 2020 3 8 5 0, utc 2020 11 1 5 0, utc 2021 3 14 5 0,
     utc 2021 11 7 5 0, utc 2022 3 13 5 0, utc 2022 11 6 5 0, utc 2023 3 12 5 0,
     utc 2023 11 5 5 0, utc 2024 3 10 5 0, utc 2024 11 3 5 0, utc 2025 3 9 5 0, utc 2025 11 2 5 0,
     utc 2026 3 8 5 0, utc 2026 11 1 5 0, utc 2027 3 14 5 0, utc 2027 11 7 5 0, utc 2028 3 12 5 0,
     utc 2028 11 5 5 0, utc 2029 3 11 5 0, utc 2029 11 4 5 0, utc 2030 3 10 5 0,
     utc 2030 11 3 5 0]

/-- Samoa, from 2010 on; 30 December 2011 was left out. -/
def apia : Zone where
  initial := .east (-39600)
  changes :=
    alternate (.east (-36000)) (.east (-39600))
      [utc 2010 9 26 11 0, utc 2011 4 2 14 0, utc 2011 9 24 14 0]
    ++ alternate (.east 50400) (.east 46800)
      [utc 2011 12 30 10 0, utc 2012 3 31 14 0, utc 2012 9 29 14 0, utc 2013 4 6 14 0,
       utc 2013 9 28 14 0, utc 2014 4 5 14 0, utc 2014 9 27 14 0, utc 2015 4 4 14 0,
       utc 2015 9 26 14 0, utc 2016 4 2 14 0, utc 2016 9 24 14 0, utc 2017 4 1 14 0,
       utc 2017 9 23 14 0, utc 2018 3 31 14 0, utc 2018 9 29 14 0, utc 2019 4 6 14 0,
       utc 2019 9 28 14 0, utc 2020 4 4 14 0, utc 2020 9 26 14 0, utc 2021 4 3 14 0]

/-- Brazil in the east, from 2010 until it gave up summer time in 2019. -/
def saoPaulo : Zone where
  initial := .east (-7200)
  changes := alternate (.east (-10800)) (.east (-7200))
    [utc 2010 2 21 2 0, utc 2010 10 17 3 0, utc 2011 2 20 2 0, utc 2011 10 16 3 0,
     utc 2012 2 26 2 0, utc 2012 10 21 3 0, utc 2013 2 17 2 0, utc 2013 10 20 3 0,
     utc 2014 2 16 2 0, utc 2014 10 19 3 0, utc 2015 2 22 2 0, utc 2015 10 18 3 0,
     utc 2016 2 21 2 0, utc 2016 10 16 3 0, utc 2017 2 19 2 0, utc 2017 10 15 3 0,
     utc 2018 2 18 2 0, utc 2018 11 4 3 0, utc 2019 2 17 2 0]

/-- Lebanon, from 2010 to 2030. -/
def beirut : Zone where
  initial := .east 7200
  changes := alternate (.east 10800) (.east 7200)
    [utc 2010 3 27 22 0, utc 2010 10 30 21 0, utc 2011 3 26 22 0, utc 2011 10 29 21 0,
     utc 2012 3 24 22 0, utc 2012 10 27 21 0, utc 2013 3 30 22 0, utc 2013 10 26 21 0,
     utc 2014 3 29 22 0, utc 2014 10 25 21 0, utc 2015 3 28 22 0, utc 2015 10 24 21 0,
     utc 2016 3 26 22 0, utc 2016 10 29 21 0, utc 2017 3 25 22 0, utc 2017 10 28 21 0,
     utc 2018 3 24 22 0, utc 2018 10 27 21 0, utc 2019 3 30 22 0, utc 2019 10 26 21 0,
     utc 2020 3 28 22 0, utc 2020 10 24 21 0, utc 2021 3 27 22 0, utc 2021 10 30 21 0,
     utc 2022 3 26 22 0, utc 2022 10 29 21 0, utc 2023 3 25 22 0, utc 2023 10 28 21 0,
     utc 2024 3 30 22 0, utc 2024 10 26 21 0, utc 2025 3 29 22 0, utc 2025 10 25 21 0,
     utc 2026 3 28 22 0, utc 2026 10 24 21 0, utc 2027 3 27 22 0, utc 2027 10 30 21 0,
     utc 2028 3 25 22 0, utc 2028 10 28 21 0, utc 2029 3 24 22 0, utc 2029 10 27 21 0,
     utc 2030 3 30 22 0, utc 2030 10 26 21 0]

/-- Lord Howe Island, where summer time is half an hour, from 2010 to 2030. -/
def lordHowe : Zone where
  initial := .east 39600
  changes := alternate (.east 37800) (.east 39600)
    [utc 2010 4 3 15 0, utc 2010 10 2 15 30, utc 2011 4 2 15 0, utc 2011 10 1 15 30,
     utc 2012 3 31 15 0, utc 2012 10 6 15 30, utc 2013 4 6 15 0, utc 2013 10 5 15 30,
     utc 2014 4 5 15 0, utc 2014 10 4 15 30, utc 2015 4 4 15 0, utc 2015 10 3 15 30,
     utc 2016 4 2 15 0, utc 2016 10 1 15 30, utc 2017 4 1 15 0, utc 2017 9 30 15 30,
     utc 2018 3 31 15 0, utc 2018 10 6 15 30, utc 2019 4 6 15 0, utc 2019 10 5 15 30,
     utc 2020 4 4 15 0, utc 2020 10 3 15 30, utc 2021 4 3 15 0, utc 2021 10 2 15 30,
     utc 2022 4 2 15 0, utc 2022 10 1 15 30, utc 2023 4 1 15 0, utc 2023 9 30 15 30,
     utc 2024 4 6 15 0, utc 2024 10 5 15 30, utc 2025 4 5 15 0, utc 2025 10 4 15 30,
     utc 2026 4 4 15 0, utc 2026 10 3 15 30, utc 2027 4 3 15 0, utc 2027 10 2 15 30,
     utc 2028 4 1 15 0, utc 2028 9 30 15 30, utc 2029 3 31 15 0, utc 2029 10 6 15 30,
     utc 2030 4 6 15 0, utc 2030 10 5 15 30]

/-- Newfoundland, from 2010 to 2030. Until 2011 clocks were changed at one minute past midnight,
so in autumn they were put back into the day before. -/
def stJohns : Zone where
  initial := .east (-12600)
  changes := alternate (.east (-9000)) (.east (-12600))
    [utc 2010 3 14 3 31, utc 2010 11 7 2 31, utc 2011 3 13 3 31, utc 2011 11 6 4 30,
     utc 2012 3 11 5 30, utc 2012 11 4 4 30, utc 2013 3 10 5 30, utc 2013 11 3 4 30,
     utc 2014 3 9 5 30, utc 2014 11 2 4 30, utc 2015 3 8 5 30, utc 2015 11 1 4 30,
     utc 2016 3 13 5 30, utc 2016 11 6 4 30, utc 2017 3 12 5 30, utc 2017 11 5 4 30,
     utc 2018 3 11 5 30, utc 2018 11 4 4 30, utc 2019 3 10 5 30, utc 2019 11 3 4 30,
     utc 2020 3 8 5 30, utc 2020 11 1 4 30, utc 2021 3 14 5 30, utc 2021 11 7 4 30,
     utc 2022 3 13 5 30, utc 2022 11 6 4 30, utc 2023 3 12 5 30, utc 2023 11 5 4 30,
     utc 2024 3 10 5 30, utc 2024 11 3 4 30, utc 2025 3 9 5 30, utc 2025 11 2 4 30,
     utc 2026 3 8 5 30, utc 2026 11 1 4 30, utc 2027 3 14 5 30, utc 2027 11 7 4 30,
     utc 2028 3 12 5 30, utc 2028 11 5 4 30, utc 2029 3 11 5 30, utc 2029 11 4 4 30,
     utc 2030 3 10 5 30, utc 2030 11 3 4 30]

def entries : List (String × Zone) :=
  [("UTC", universal), ("Europe/Helsinki", helsinki), ("Europe/Stockholm", stockholm),
   ("Asia/Kathmandu", kathmandu), ("America/Santiago", santiago), ("America/Havana", havana),
   ("Pacific/Apia", apia), ("America/Sao_Paulo", saoPaulo), ("Asia/Beirut", beirut),
   ("Australia/Lord_Howe", lordHowe), ("America/St_Johns", stJohns)]

end ZoneTable

/-- The zone of a name in this table; names are matched exactly. -/
def Zone.named? (name : String) : Option Zone :=
  ZoneTable.entries.lookup name

end QuayTimeline
